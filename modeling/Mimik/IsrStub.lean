/-
# Interrupt stubs (`cpu/isr.S`)

The processor pushes an error code for some exceptions only.  Each stub pushes a zero where
there is none, and its vector; the common part pushes fifteen registers, so that the stack
holds a `struct isr_frame` below the context that the processor has pushed, and calls
`isr_common` with its address.  On the way back the registers are popped, the vector and the
error code are dropped, and `iretq` returns to the context.

The code that the compiler makes of `isr_common` is a parameter.  It is taken to keep to the
calling convention: called on an aligned stack, it returns with the stack pointer it was
called with, does to the frame and to the kernel what the function does, and writes nothing else
but its own part of the stack and the kernel's data.

Then an interrupt is transparent: `isr_common` sees the registers of the interrupted code, which
goes on with what is left for it in the frame, and with its stack as it was
(`Interruptible.served`).
-/
import Mimik.Isr

namespace Mimik.Isr

open X86

/-! ## The code -/

/-- The stubs that are defined by `ISRERR`; the others are defined by `ISRNOERR`. -/
def isrErr : List ℕ := [8, 10, 11, 12, 13, 14, 17, 21, 29, 30]

/-- The stub `n`, up to its jump to `isr_stub`. -/
def isrEntry (n : ℕ) : List Instr :=
  if n ∈ isrErr then [.pushImm (BitVec.ofNat 64 n)] else [.pushImm 0, .pushImm (BitVec.ofNat 64 n)]

/-- `PUSHREGS`. -/
def pushRegs : List Reg :=
  [.rbp, .rax, .rbx, .rcx, .rdx, .rdi, .rsi, .r8, .r9, .r10, .r11, .r12, .r13, .r14, .r15]

/-- `POPREGS`. -/
def popRegs : List Reg :=
  [.r15, .r14, .r13, .r12, .r11, .r10, .r9, .r8, .rsi, .rdi, .rdx, .rcx, .rbx, .rax, .rbp]

/-- `isr_stub`, up to the call of `isr_common`. -/
def isrStubCall : List Instr := pushRegs.map .push ++ [.mov .rsp .rdi]

/-- `isr_stub`, from the return of `isr_common` to `iretq`. -/
def isrStubReturn : List Instr := popRegs.map .pop ++ [.addImm 16 .rsp]

/-! ## Frames -/

/-- The frame of interrupted code with these registers. -/
def IsrFrame.of (reg : Reg → BitVec 64) (n error : BitVec 64) : IsrFrame where
  r15 := reg .r15
  r14 := reg .r14
  r13 := reg .r13
  r12 := reg .r12
  r11 := reg .r11
  r10 := reg .r10
  r9 := reg .r9
  r8 := reg .r8
  rsi := reg .rsi
  rdi := reg .rdi
  rdx := reg .rdx
  rcx := reg .rcx
  rbx := reg .rbx
  rax := reg .rax
  rbp := reg .rbp
  isrN := n
  error := error

/-- The registers that are taken from a frame; it has no field for the stack pointer. -/
def IsrFrame.restore (f : IsrFrame) (reg : Reg → BitVec 64) : Reg → BitVec 64
  | .r15 => f.r15
  | .r14 => f.r14
  | .r13 => f.r13
  | .r12 => f.r12
  | .r11 => f.r11
  | .r10 => f.r10
  | .r9 => f.r9
  | .r8 => f.r8
  | .rsi => f.rsi
  | .rdi => f.rdi
  | .rdx => f.rdx
  | .rcx => f.rcx
  | .rbx => f.rbx
  | .rax => f.rax
  | .rbp => f.rbp
  | .rsp => reg .rsp

/-- A frame that is left alone restores the registers. -/
@[simp] theorem restore_of (reg : Reg → BitVec 64) (n error : BitVec 64) :
    (IsrFrame.of reg n error).restore reg = reg := by
  funext r
  cases r <;> rfl

/-- The words of a frame on the stack. -/
theorem read_of_words {mem : ByteMemory} {a : ℕ} {reg : Reg → BitVec 64} {n error : BitVec 64}
    (h : Words mem a (popRegs.map reg ++ [n, error])) :
    IsrFrame.read mem a = .of reg n error := by
  obtain ⟨h1, h2, h3, h4, h5, h6, h7, h8, h9, h10, h11, h12, h13, h14, h15, h16, h17, -⟩ := h
  unfold IsrFrame.read IsrFrame.of
  rw [h1, h2, h3, h4, h5, h6, h7, h8, h9, h10, h11, h12, h13, h14, h15, h16, h17]

/-- The registers in a frame are on the stack. -/
theorem words_of_read {mem : ByteMemory} {a : ℕ} {f : IsrFrame} (reg : Reg → BitVec 64)
    (h : IsrFrame.read mem a = f) : Words mem a (popRegs.map (f.restore reg)) := by
  subst h
  exact ⟨rfl, rfl, rfl, rfl, rfl, rfl, rfl, rfl, rfl, rfl, rfl, rfl, rfl, rfl, rfl, trivial⟩

/-! ## The compiled handler -/

/-- The kernel's image: where the stubs and the table are. -/
structure Image where
  isr : ℕ → BitVec 64
  idt : ℕ
  canonical : ∀ n < 48, IsCanonical (isr n)
  injective : ∀ n < 48, ∀ n' < 48, isr n = isr n' → n = n'

/-- The stub at an address. -/
def Image.stub (image : Image) (rip : BitVec 64) : Option ℕ :=
  (List.range 48).find? fun n => image.isr n == rip

section Service

variable {κ : Type} {common : IsrFrame → κ → Except Fault (IsrFrame × κ)} {own : Set ℕ} {room : ℕ}
  {body : Machine → κ → Except Fault (Machine × κ)} {image : Image}

/-- What the call of `isr_common` leaves: the stack pointer, the frame as the function leaves it,
and all other memory but the kernel's own and `room` bytes of the stack. -/
structure Returned (own : Set ℕ) (room : ℕ) (f : IsrFrame) (m m' : Machine) : Prop where
  rsp : m'.reg .rsp = m.reg .rsp
  frame : IsrFrame.read m'.mem (m.reg .rdi).toNat = f
  rest : ∀ b ∉ own, b < m.sp - room ∨ (m.reg .rdi).toNat + sizeofIsrFrame ≤ b →
    m'.mem b = m.mem b

/-- **The calling convention**: called on an aligned stack with `room` bytes left and a frame on it,
the code does what the function does. -/
structure Compiled (common : IsrFrame → κ → Except Fault (IsrFrame × κ)) (own : Set ℕ) (room : ℕ)
    (body : Machine → κ → Except Fault (Machine × κ)) : Prop where
  returns : ∀ m k f k', m.sp % 16 = 0 → room ≤ m.sp → m.reg .rdi = m.reg .rsp →
    common (IsrFrame.read m.mem (m.reg .rdi).toNat) k = .ok (f, k') →
    ∃ m', body m k = .ok (m', k') ∧ Returned own room f m m'
  halts : ∀ m k fault, m.sp % 16 = 0 → room ≤ m.sp → m.reg .rdi = m.reg .rsp →
    common (IsrFrame.read m.mem (m.reg .rdi).toNat) k = .error fault → body m k = .error fault

/-- An event is served: the processor enters the stub in the table, and the stub runs. -/
def service (image : Image) (body : Machine → κ → Except Fault (Machine × κ)) (e : Event)
    (m : Machine) (k : κ) : Except Fault (Machine × κ) :=
  match deliver (idtr image.idt) e m with
  | none => .error (.wild "idt")
  | some m₁ =>
    match image.stub m₁.rip with
    | none => .error (.wild "isr")
    | some n => do
      let (m₂, k) ← body (run (isrEntry n ++ isrStubCall) m₁) k
      return (iretq (run isrStubReturn m₂), k)

/-! ## To the call -/

variable {e : Event} {g : Gate} {m m' : Machine} {k k' : κ}

/-- The error code in the frame: 0 for an event without one. -/
def codeOf (e : Event) : BitVec 64 := e.error.getD 0

/-- The context that the processor pushes. -/
def context (e : Event) (m : Machine) : List (BitVec 64) :=
  [m.rip, m.cs.setWidth 64, e.image m.rflags, m.reg .rsp, m.ss.setWidth 64]

/-- The words that a stub pushes before the registers. -/
def entryWords (n : ℕ) : List (BitVec 64) :=
  if n ∈ isrErr then [BitVec.ofNat 64 n] else [0, BitVec.ofNat 64 n]

theorem run_isrEntry (n : ℕ) (m : Machine) : run (isrEntry n) m = m.pushAll (entryWords n) := by
  unfold isrEntry entryWords
  split <;> rfl

/-- The stub and the processor push the same words for all vectors. -/
theorem entry_words (hcode : e.HasCode) :
    (entryWords e.vector).reverse ++ (e.pushed m).reverse =
      [BitVec.ofNat 64 e.vector, codeOf e] ++ context e m := by
  unfold entryWords Event.pushed codeOf context
  cases herr : e.error with
  | none =>
    have hnot : e.vector ∉ isrErr := fun hmem => by
      have hsome := hcode.mpr hmem
      rw [herr] at hsome
      cases hsome
    rw [if_neg hnot]
    rfl
  | some c =>
    have hmem : e.vector ∈ isrErr := hcode.mp (by rw [herr]; rfl)
    rw [if_pos hmem]
    rfl

/-- The machine at the call of `isr_common`, for an event in `m`. -/
structure AtCall (e : Event) (m m₂ : Machine) : Prop where
  sp : m₂.sp + 176 = m.sp / 16 * 16
  words : Words m₂.mem m₂.sp
    (popRegs.map m.reg ++ [BitVec.ofNat 64 e.vector, codeOf e] ++ context e m)
  rest : ∀ b, b < m₂.sp ∨ m.sp / 16 * 16 ≤ b → m₂.mem b = m.mem b
  rdi : m₂.reg .rdi = m₂.reg .rsp

/-- **To the call**: a frame of the interrupted registers lies below the context, on an aligned
stack. -/
theorem atCall_of_enter (hcode : e.HasCode) (hroom : 256 ≤ m.sp) :
    AtCall e m (run (isrEntry e.vector ++ isrStubCall) (e.enter g m)) := by
  obtain ⟨m₁, hm₁⟩ : ∃ m₁, m₁ = e.enter g m := ⟨_, rfl⟩
  have hentered : Entered g e m m₁ := hm₁ ▸ enter_spec (by omega)
  rw [← hm₁, run_append, run_isrEntry]
  -- the vector, and a zero where there is no error code
  have hpushed : (e.pushed m).length + (entryWords e.vector).length = 7 := by
    have hlength := congrArg List.length (entry_words (m := m) hcode)
    simp only [List.length_append, List.length_reverse] at hlength
    rw [Nat.add_comm, hlength]
    rfl
  have hsp₁ := hentered.sp
  have hstub : Pushed (entryWords e.vector) _ m₁ (m₁.pushAll (entryWords e.vector)) :=
    pushAll_spec (by omega) hentered.words
  obtain ⟨m₂, hm₂⟩ : ∃ m₂, m₂ = m₁.pushAll (entryWords e.vector) := ⟨_, rfl⟩
  rw [← hm₂] at hstub ⊢
  have hwords := hstub.words
  have hsp₂ := hstub.sp
  rw [entry_words hcode] at hwords
  -- the registers
  have hrsp : Reg.rsp ∉ pushRegs := by decide
  have hregs : pushRegs.map m₂.reg = pushRegs.map m.reg :=
    List.map_congr_left fun r hmem => by
      have hne : r ≠ .rsp := fun heq => hrsp (heq ▸ hmem)
      rw [hstub.reg r hne, hentered.reg r hne]
  have hlength : (pushRegs.map m.reg).length = 15 := by rw [List.length_map]; rfl
  have hall : Pushed (pushRegs.map m.reg) _ m₂ (m₂.pushAll (pushRegs.map m.reg)) :=
    pushAll_spec (by omega) hwords
  have hsp₃ := hall.sp
  rw [isrStubCall, run_append, run_push hrsp, hregs]
  obtain ⟨m₃, hm₃⟩ : ∃ m₃, m₃ = m₂.pushAll (pushRegs.map m.reg) := ⟨_, rfl⟩
  rw [← hm₃] at hall hsp₃ ⊢
  have hfinal : run [.mov .rsp .rdi] m₃ = m₃.setReg .rdi (m₃.reg .rsp) := rfl
  have hsp : (m₃.setReg .rdi (m₃.reg .rsp)).sp = m₃.sp := by
    unfold Machine.sp
    rw [setReg_of_ne (by decide)]
  rw [hfinal]
  refine ⟨by omega, ?_, fun b hout => ?_, ?_⟩
  · have hpops : (pushRegs.map m.reg).reverse = popRegs.map m.reg := by
      rw [← List.map_reverse]
      rfl
    have hframe := hall.words
    rw [hpops, ← List.append_assoc] at hframe
    rw [hsp]
    exact hframe
  · show m₃.mem b = m.mem b
    rw [hsp] at hout
    rw [hall.rest b (by omega), hstub.rest b (by omega), hentered.rest b (by omega)]
  · rw [setReg_same, setReg_of_ne (by decide)]

/-! ## From the call -/

/-- The machine after the interrupt: what is left in the frame for its registers, and its own
context. -/
def resumed (e : Event) (f : IsrFrame) (m : Machine) (mem : ByteMemory) : Machine where
  reg := f.restore m.reg
  rip := m.rip
  cs := m.cs
  ss := m.ss
  rflags := e.image m.rflags
  mem := mem

/-- **From the call**: the registers are those of the frame, and the context is the one that the
processor has pushed. -/
theorem iretq_of_returned {m₂ m₃ : Machine} {f : IsrFrame} (hcall : AtCall e m m₂)
    (hreturned : Returned own room f m₂ m₃)
    (hown : ∀ b ∈ own, b < m.sp / 16 * 16 - 40 ∨ m.sp / 16 * 16 ≤ b) :
    iretq (run isrStubReturn m₃) = resumed e f m m₃.mem := by
  obtain ⟨hsp, hwords, -, hrdi⟩ := hcall
  obtain ⟨hrsp, hframe, hstack⟩ := hreturned
  have hlt := (m.reg .rsp).isLt
  have hat : (m₂.reg .rdi).toNat = m₂.sp := by rw [hrdi, Machine.sp]
  have hsp₃ : m₃.sp = m₂.sp := by rw [Machine.sp, hrsp, Machine.sp]
  rw [hat] at hframe hstack
  have hbound : m₂.sp + 176 < 2 ^ 64 := by
    unfold Machine.sp at hsp ⊢
    omega
  -- the registers
  have hrest : Reg.rsp ∉ popRegs := by decide
  have hpopped := run_pop (m := m₃) hrest (by rw [hsp₃]; show m₂.sp + 8 * 15 < 2 ^ 64; omega)
    (hsp₃ ▸ words_of_read m.reg hframe)
  obtain ⟨m₄, hm₄⟩ : ∃ m₄, m₄ = run (popRegs.map .pop) m₃ := ⟨_, rfl⟩
  rw [← hm₄] at hpopped
  rw [isrStubReturn, run_append, ← hm₄]
  -- the vector and the error code are dropped
  obtain ⟨m₅, hm₅⟩ : ∃ m₅, m₅ = run [.addImm 16 .rsp] m₄ := ⟨_, rfl⟩
  have hsp₅ : m₅.sp = m₂.sp + 136 := by
    have hreg : m₅.reg .rsp = m₃.reg .rsp + BitVec.ofNat 64 136 := by
      rw [hm₅]
      show (m₄.setReg .rsp (m₄.reg .rsp + 16)).reg .rsp = _
      rw [setReg_same, hpopped.sp, BitVec.add_assoc]
      rfl
    have hconst : (BitVec.ofNat 64 136).toNat = 136 := rfl
    unfold Machine.sp at hsp₃ hbound ⊢
    rw [hreg, BitVec.toNat_add, hconst, hsp₃, Nat.mod_eq_of_lt (by omega)]
  have hmem₅ : m₅.mem = m₃.mem := by
    rw [hm₅]
    exact hpopped.mem
  -- the context
  have hcontext : Words m₅.mem m₅.sp (context e m) := by
    rw [words_append, List.length_append, List.length_map] at hwords
    rw [hmem₅, hsp₅]
    refine hwords.2.congr fun b hle hlt' => hstack b (fun hmem => ?_) (Or.inr hle)
    have hout := hown b hmem
    have hlength : 8 * (context e m).length = 40 := rfl
    have hfront : 8 * (popRegs.length + [BitVec.ofNat 64 e.vector, codeOf e].length) = 136 := rfl
    omega
  have hreg : (m₅.setReg .rsp (m.reg .rsp)).reg = f.restore m.reg := by
    funext r
    by_cases hr : r = .rsp
    · rw [hr]
      exact setReg_same .rsp _
    · have hmem : r ∈ popRegs := by
        revert hr
        cases r <;> decide
      have hreg₅ : m₅.reg r = m₄.reg r := by
        rw [hm₅]
        exact setReg_of_ne hr
      rw [setReg_of_ne hr, hreg₅, hpopped.mem_regs r hmem]
  rw [← hm₅, iretq_of_words hcontext]
  exact congrArg₂ (fun reg mem => Machine.mk reg m.rip m.cs m.ss (e.image m.rflags) mem) hreg hmem₅

/-! ## Service -/

/-- The part of the stack that an interrupt may use. -/
def scratch (room : ℕ) (m : Machine) : Set ℕ := {b | m.sp - (room + 256) ≤ b ∧ b < m.sp}

/-- The machine may be interrupted: the table is there, the stack has room for a frame and for the
handler, and neither the kernel's own data nor the table lies there. -/
structure Interruptible (image : Image) (own : Set ℕ) (room : ℕ) (m : Machine) : Prop where
  idt : IdtReady image.idt image.isr m.mem
  enough : room + 256 ≤ m.sp
  outside : ∀ b ∈ own, b ∉ scratch room m
  table : ∀ b, image.idt ≤ b → b < image.idt + maxIdtEntries * sizeofIdtEntry →
    b ∉ own ∧ b ∉ scratch room m

/-- Stubs are found at their addresses. -/
theorem stub_isr {n : ℕ} (hn : n < 48) : image.stub (image.isr n) = some n := by
  unfold Image.stub
  rw [List.find?_range_eq_some]
  refine ⟨beq_self_eq_true _, List.mem_range.mpr hn, fun j hj => ?_⟩
  have hne : image.isr j ≠ image.isr n := fun heq =>
    absurd (image.injective j (by omega) n hn heq) (by omega)
  simp [hne]

/-- The gate of a stub can be used. -/
theorem gateOf_usable {n : ℕ} (hn : n < 48) (type : GateType) :
    (gateOf (image.isr n) type).Usable := by
  refine ⟨rfl, ?_, rfl, image.canonical n hn⟩
  cases type
  · exact Or.inl rfl
  · exact Or.inr rfl

/-- The stub of a vector is entered. -/
theorem service_eq (hinterruptible : Interruptible image own room m) (hn : e.vector < 48) :
    service image body e m k = do
      let g := gateOf (image.isr e.vector) (typeOf e.vector)
      let (m₂, k) ← body (run (isrEntry e.vector ++ isrStubCall) (e.enter g m)) k
      return (iretq (run isrStubReturn m₂), k) := by
  have hgate := hinterruptible.idt e.vector (Nat.lt_trans hn (by decide))
  rw [if_pos hn] at hgate
  have hdeliver : deliver (idtr image.idt) e m =
      some (e.enter (gateOf (image.isr e.vector) (typeOf e.vector)) m) := by
    refine deliver_eq_some_iff.mpr ⟨?_, ?_, ?_⟩
    · show 16 * e.vector + 15 ≤ 256 * 16 - 1
      omega
    · exact hgate ▸ gateOf_usable hn (typeOf e.vector)
    · exact congrArg (e.enter · m) hgate
  unfold service
  rw [hdeliver]
  simp only [show (e.enter (gateOf (image.isr e.vector) (typeOf e.vector)) m).rip =
    image.isr e.vector from rfl, stub_isr hn]

/-- How an event in `m` is served: `isr_common` gets the registers of the interrupted code, the
vector and the error code.  If it returns, the code goes on where it was, with what is in the
frame for its registers and with its memory; if it halts, the machine does.  A vector without a
stub is not served. -/
structure Served (common : IsrFrame → κ → Except Fault (IsrFrame × κ)) (own : Set ℕ) (room : ℕ)
    (image : Image) (body : Machine → κ → Except Fault (Machine × κ)) (e : Event) (m : Machine)
    (k : κ) : Prop where
  returns : e.vector < 48 → ∀ f k',
    common (.of m.reg (BitVec.ofNat 64 e.vector) (codeOf e)) k = .ok (f, k') →
    ∃ mem, service image body e m k = .ok (resumed e f m mem, k') ∧
      ∀ b ∉ own, b ∉ scratch room m → mem b = m.mem b
  halts : e.vector < 48 → ∀ fault,
    common (.of m.reg (BitVec.ofNat 64 e.vector) (codeOf e)) k = .error fault →
    service image body e m k = .error fault
  refused : 48 ≤ e.vector → service image body e m k = .error (.wild "idt")

/-- **A machine that may be interrupted** serves each event. -/
theorem Interruptible.served (hcompiled : Compiled common own room body) (hcode : e.HasCode)
    (hinterruptible : Interruptible image own room m) (hlimit : e.vector < maxIdtEntries) :
    Served common own room image body e m k := by
  have hroom := hinterruptible.enough
  have hown := hinterruptible.outside
  have hcall := atCall_of_enter (g := gateOf (image.isr e.vector) (typeOf e.vector)) (m := m) hcode
    (by omega)
  obtain ⟨m₂, hm₂⟩ : ∃ m₂, m₂ = run (isrEntry e.vector ++ isrStubCall)
    (e.enter (gateOf (image.isr e.vector) (typeOf e.vector)) m) := ⟨_, rfl⟩
  rw [← hm₂] at hcall
  have hsp := hcall.sp
  have haligned : m₂.sp % 16 = 0 := by omega
  have hroom₂ : room ≤ m₂.sp := by omega
  have hframe : IsrFrame.read m₂.mem (m₂.reg .rdi).toNat =
      .of m.reg (BitVec.ofNat 64 e.vector) (codeOf e) := by
    rw [hcall.rdi]
    exact read_of_words (words_append.mp hcall.words).1
  refine ⟨fun hn f k' hcommon => ?_, fun hn fault hcommon => ?_, fun hn => ?_⟩
  · obtain ⟨m₃, hbody, hreturned⟩ :=
      hcompiled.returns m₂ k f k' haligned hroom₂ hcall.rdi (hframe ▸ hcommon)
    refine ⟨m₃.mem, ?_, fun b hout hscratch => ?_⟩
    · rw [service_eq hinterruptible hn]
      simp only [← hm₂]
      rw [hbody]
      refine congrArg (fun m => Except.ok (m, k')) (iretq_of_returned hcall hreturned ?_)
      intro b hmem
      have hout : ¬ (m.sp - (room + 256) ≤ b ∧ b < m.sp) := hown b hmem
      omega
    · have hat : (m₂.reg .rdi).toNat = m₂.sp := by rw [hcall.rdi, Machine.sp]
      have hout' : ¬ (m.sp - (room + 256) ≤ b ∧ b < m.sp) := hscratch
      have hrest := hreturned.rest b hout (by unfold sizeofIsrFrame; omega)
      rw [hrest, hcall.rest b (by omega)]
  · rw [service_eq hinterruptible hn]
    simp only [← hm₂]
    rw [hcompiled.halts m₂ k fault haligned hroom₂ hcall.rdi (hframe ▸ hcommon)]
    rfl
  · have hgate := hinterruptible.idt e.vector hlimit
    rw [if_neg (by omega)] at hgate
    have hnone : deliver (idtr image.idt) e m = none := by
      cases hdeliver : deliver (idtr image.idt) e m with
      | none => rfl
      | some m₁ =>
        have husable := (deliver_eq_some_iff.mp hdeliver).2.1.1
        rw [show (idtr image.idt).base = image.idt from rfl, hgate] at husable
        cases husable
    unfold service
    rw [hnone]

/-- **Interrupts are transparent after `isr_init`**: while the table holds what `isr_init` has
written into it and the stack has room, every event is served. -/
theorem served_after_isrInit {mem₀ : ByteMemory} (hcompiled : Compiled common own room body)
    (hzero : ∀ b, image.idt ≤ b → b < image.idt + maxIdtEntries * sizeofIdtEntry → mem₀ b = 0)
    (htable : ∀ b, image.idt ≤ b → b < image.idt + maxIdtEntries * sizeofIdtEntry →
      m.mem b = isrInit image.idt image.isr mem₀ b ∧ b ∉ own ∧ b ∉ scratch room m)
    (henough : room + 256 ≤ m.sp) (houtside : ∀ b ∈ own, b ∉ scratch room m) :
    ∀ e : Event, e.HasCode → e.vector < maxIdtEntries →
      Served common own room image body e m k := by
  intro e hcode hlimit
  have hready : IdtReady image.idt image.isr m.mem :=
    (isrInit_ready hzero).congr fun b hle hlt => (htable b hle hlt).1
  have hinterruptible : Interruptible image own room m :=
    ⟨hready, henough, houtside, fun b hle hlt => (htable b hle hlt).2⟩
  exact hinterruptible.served hcompiled hcode hlimit

/-- A frame that is left alone restores the machine, if the instruction is not to be executed
again. -/
theorem resumed_of {mem : ByteMemory} {n code : BitVec 64} (hrestarts : e.restarts = false) :
    resumed e (.of m.reg n code) m mem = { m with mem } := by
  unfold resumed Event.image
  rw [restore_of, hrestarts, if_neg Bool.false_ne_true]

/-- Handlers that leave frames alone. -/
def KeepsFrame (common : IsrFrame → κ → Except Fault (IsrFrame × κ)) : Prop :=
  ∀ f k f' k', common f k = .ok (f', k') → f' = f

/-- Code that needs no stack, for a function that leaves frames alone. -/
def plainBody (common : IsrFrame → κ → Except Fault (IsrFrame × κ)) (m : Machine) (k : κ) :
    Except Fault (Machine × κ) := do
  let (_, k) ← common (IsrFrame.read m.mem (m.reg .rdi).toNat) k
  return (m, k)

theorem compiled_plainBody (hkeeps : KeepsFrame common) :
    Compiled common own room (plainBody common) where
  returns m k f k' _ _ _ hcommon := by
    refine ⟨m, ?_, rfl, ?_, fun b _ _ => rfl⟩
    · rw [plainBody, hcommon]
      rfl
    · exact (hkeeps _ k f k' hcommon).symm
  halts m k fault _ _ _ hcommon := by
    rw [plainBody, hcommon]
    rfl

/-- The kernel's only handler leaves frames alone. -/
theorem keepsFrame_pit {σ : Type} : KeepsFrame (isrCommon (σ := σ) fun _ : Unit => pitHandler) := by
  intro f k f' k' hok
  obtain ⟨-, _, _, -, hcall, -⟩ := isrCommon_eq_ok_iff.mp hok
  obtain ⟨_, -, hreturn⟩ := Except.bind_eq_ok_iff.mp hcall
  exact (congrArg Prod.fst (Except.ok.inj hreturn)).symm

end Service

/-! ## A timer interrupt -/

/-- Stubs from `0x3000` on, and the table at `0x1000`. -/
def sampleImage : Image where
  isr n := BitVec.ofNat 64 (0x3000 + 16 * n)
  idt := 0x1000
  canonical := by decide
  injective n hn n' hn' heq := by
    have hvalue := congrArg BitVec.toNat heq
    rw [BitVec.toNat_ofNat, BitVec.toNat_ofNat] at hvalue
    omega

/-- A machine with the table that `isr_init` has written, and its stack at `0x9000`. -/
def sampleMachine : Machine where
  reg r := if r = .rsp then 0x9000 else 7
  rip := 0x4000
  cs := 8
  ss := 16
  rflags := 0x202
  mem := isrInit 0x1000 sampleImage.isr fun _ => 0

/-- The table lies apart from the stack. -/
theorem sampleMachine_table {b : ℕ} (hlt : b < 0x1000 + maxIdtEntries * sizeofIdtEntry) :
    b ∉ (∅ : Set ℕ) ∧ b ∉ scratch 0 sampleMachine := by
  refine ⟨Set.notMem_empty b, fun hscratch => ?_⟩
  have hlow : 0x9000 - (0 + 256) ≤ b := hscratch.1
  have hhigh : b < 0x1000 + 256 * 16 := hlt
  omega

/-- The timer's handler, and nothing masked. -/
def sampleIrqs : Irqs Unit Unit where
  isrs n := if n = 32 then some () else none
  useNewPic := false
  chips := ⟨Pic.firmware.pics, 1, 0⟩
  rest := ()

/-- The timer interrupts, and its line goes out of service. -/
theorem served_after_isrInit_timer : ∃ mem,
    service sampleImage (plainBody (isrCommon fun _ => pitHandler)) ⟨32, none, false⟩ sampleMachine
      sampleIrqs =
        .ok ({ sampleMachine with mem },
          { sampleIrqs with chips := ⟨Pic.firmware.pics, 0, 0⟩ }) := by
  have hcompiled : Compiled (isrCommon fun _ : Unit => pitHandler) ∅ 0
      (plainBody (isrCommon fun _ => pitHandler)) := compiled_plainBody (keepsFrame_pit (σ := Unit))
  have htable : ∀ b, sampleImage.idt ≤ b →
      b < sampleImage.idt + maxIdtEntries * sizeofIdtEntry →
      sampleMachine.mem b = isrInit sampleImage.idt sampleImage.isr (fun _ => 0) b ∧
        b ∉ (∅ : Set ℕ) ∧ b ∉ scratch 0 sampleMachine :=
    fun b _ hlt => ⟨rfl, sampleMachine_table hlt⟩
  have hserved := served_after_isrInit (k := sampleIrqs) hcompiled (fun _ _ _ => rfl) htable
    (by decide) (fun b hmem => absurd hmem (Set.notMem_empty b)) ⟨32, none, false⟩ (by decide)
    (by decide)
  obtain ⟨mem, hservice, -⟩ := hserved.returns (by decide) _ _ rfl
  rw [resumed_of rfl] at hservice
  exact ⟨mem, hservice⟩

end Mimik.Isr
