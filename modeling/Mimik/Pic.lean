/-
# Interrupt controllers (`cpu/pic.c`)

The two 8259 controllers are reached through ports: a write to the command port with the
bit `ICW1_INIT` starts their initialisation, the next three writes to the data port are the
words ICW2, ICW3 and ICW4, and every other one sets the mask register.  What is written to
another port is lost on them.

`PIC2_DATA` is defined as the data port of the first controller.  So the second one never
gets past its ICW1, and a call on one of its lines masks a line of the first one
(`followsCalls_iff`).
-/
import Mimik.Basic

namespace Mimik.Pic

/-! ## The controllers -/

/-- What the next write to the data port of a controller is taken for. -/
inductive Phase where
  | icw2
  | icw3
  | icw4
  | mask

/-- A controller: the vector base (ICW2), ICW3, ICW4 and the mask register. -/
structure Controller where
  phase : Phase
  base : BitVec 8
  cascade : BitVec 8
  mode : BitVec 8
  mask : BitVec 8

/-- The controllers of the machine. -/
structure Pics where
  pic1 : Controller
  pic2 : Controller

/-- `PIC_ICW1_INIT`. -/
def picIcw1Init : BitVec 8 := 0x10

/-- A write to the command port. -/
def Controller.command (c : Controller) (b : BitVec 8) : Controller :=
  if b &&& picIcw1Init ≠ 0 then { c with phase := .icw2 } else c

/-- A write to the data port. -/
def Controller.data (c : Controller) (b : BitVec 8) : Controller :=
  match c.phase with
  | .icw2 => { c with base := b, phase := .icw3 }
  | .icw3 => { c with cascade := b, phase := .icw4 }
  | .icw4 => { c with mode := b, phase := .mask }
  | .mask => { c with mask := b }

/-- `io_outb`. -/
def ioOutb (port : BitVec 16) (b : BitVec 8) (s : Pics) : Pics :=
  if port = 0x20 then { s with pic1 := s.pic1.command b }
  else if port = 0x21 then { s with pic1 := s.pic1.data b }
  else if port = 0xa0 then { s with pic2 := s.pic2.command b }
  else if port = 0xa1 then { s with pic2 := s.pic2.data b }
  else s

/-- `io_inb`; at a port without a controller nothing answers. -/
def ioInb (port : BitVec 16) (s : Pics) : BitVec 8 :=
  if port = 0x21 then s.pic1.mask
  else if port = 0xa1 then s.pic2.mask
  else 0xff

/-! ## The functions -/

/-- `PIC1`. -/
def pic1 : BitVec 16 := 0x20

/-- `PIC2`. -/
def pic2 : BitVec 16 := 0xa0

/-- `PIC1_COMM`. -/
def pic1Comm : BitVec 16 := pic1 + 0

/-- `PIC2_COMM`. -/
def pic2Comm : BitVec 16 := pic2 + 0

/-- `PIC1_DATA`. -/
def pic1Data : BitVec 16 := pic1 + 1

/-- `PIC2_DATA`. -/
def pic2Data : BitVec 16 := pic1 + 1

/-- `PIC_DISABLE`. -/
def picDisable : BitVec 8 := 0xff

/-- `PIC_ICW1_ICW4`. -/
def picIcw1Icw4 : BitVec 8 := 0x01

/-- `PIC_ICW4_8086`. -/
def picIcw48086 : BitVec 8 := 0x01

/-- `PIC_IRQBASE`. -/
def picIrqbase : BitVec 8 := 0x20

/-- `IOWAIT`. -/
def iowait (s : Pics) : Pics := ioOutb 0x80 0 s

/-- `old_pic_remap`. -/
def oldPicRemap (off : BitVec 8) (s : Pics) : Pics :=
  let pic1Mask := ioInb pic1Data s
  let pic2Mask := ioInb pic2Data s
  let s := iowait (ioOutb pic1Comm (picIcw1Init ||| picIcw1Icw4) s)
  let s := iowait (ioOutb pic2Comm (picIcw1Init ||| picIcw1Icw4) s)
  let s := iowait (ioOutb pic1Data off s)
  let s := iowait (ioOutb pic2Data (off + 8) s)
  let s := iowait (ioOutb pic1Data (1 <<< 2) s)
  let s := iowait (ioOutb pic2Data (1 <<< 1) s)
  let s := iowait (ioOutb pic1Data picIcw48086 s)
  let s := iowait (ioOutb pic2Data picIcw48086 s)
  let s := ioOutb pic1Data pic1Mask s
  ioOutb pic2Data pic2Mask s

/-- `irq < 8 ? PIC1_DATA : PIC2_DATA`. -/
def dataPort (irq : BitVec 8) : BitVec 16 := if irq < 8 then pic1Data else pic2Data

/-- `old_pic_mask`. -/
def oldPicMask (irq : BitVec 8) (s : Pics) : Pics :=
  let port := dataPort irq
  let irq := irq &&& 7
  let value := ioInb port s ||| 1#8 <<< irq.toNat
  ioOutb port value s

/-- `old_pic_unmask`. -/
def oldPicUnmask (irq : BitVec 8) (s : Pics) : Pics :=
  let port := dataPort irq
  let irq := irq &&& 7
  let value := ioInb port s &&& ~~~(1#8 <<< irq.toNat)
  ioOutb port value s

/-- `old_pic_init`. -/
def oldPicInit (s : Pics) : Pics :=
  let s := oldPicRemap picIrqbase s
  let s := ioOutb pic1Data picDisable s
  ioOutb pic2Data picDisable s

/-- `TODO()`. -/
def todo : Fault := .assertion "0 && \"unimplemented: \""

/-- `pic_mask`. -/
def picMask (useNewPic : Bool) (irq : BitVec 8) (s : Pics) : Except Fault Pics :=
  if useNewPic then .error todo else .ok (oldPicMask irq s)

/-- `pic_unmask`. -/
def picUnmask (useNewPic : Bool) (irq : BitVec 8) (s : Pics) : Except Fault Pics :=
  if useNewPic then .error todo else .ok (oldPicUnmask irq s)

/-! ## Calls -/

/-- A call of `pic_mask` or `pic_unmask`. -/
structure LineCall where
  line : Fin 16
  masks : Bool

/-- The call is made.  The controllers are in use when `use_new_pic` is not set. -/
def LineCall.run (c : LineCall) (s : Pics) : Except Fault Pics :=
  if c.masks then picMask false (BitVec.ofNat 8 c.line) s
  else picUnmask false (BitVec.ofNat 8 c.line) s

/-- Calls are made one after the other. -/
def runCalls : List LineCall → Pics → Except Fault Pics
  | [], s => .ok s
  | c :: calls, s => do
    let s ← c.run s
    runCalls calls s

/-- What the last of the calls on the lines in `on` asks for; without a call lines are masked. -/
def lastMasks (on : Fin 16 → Bool) (calls : List LineCall) : Bool :=
  calls.foldl (fun masked c => if on c.line then c.masks else masked) true

/-- The mask bit of a line. -/
def Pics.masked (s : Pics) (line : Fin 16) : Bool :=
  if line.val < 8 then s.pic1.mask.getLsbD line else s.pic2.mask.getLsbD (line - 8)

/-- After `old_pic_init` and the calls the vector bases are right, and every line is masked
unless the last call on it was `pic_unmask`. -/
def FollowsCalls (s : Pics) (calls : List LineCall) : Prop :=
  ∃ s', runCalls calls (oldPicInit s) = .ok s' ∧ s'.pic1.base = 0x20 ∧ s'.pic2.base = 0x28 ∧
    ∀ line, s'.masked line = lastMasks (· = line) calls

/-! ## What the controllers get -/

/-- **The initialisation**: all data goes to the first controller, and its mask register in the
end; the second one waits for its vector base. -/
theorem oldPicInit_eq (s : Pics) : oldPicInit s =
    { pic1 := { phase := .mask, base := 0x20, cascade := 0x28, mode := 0x04, mask := 0xff },
      pic2 := { s.pic2 with phase := .icw2 } } := rfl

/-- Every line is reached through the data port of the first controller. -/
theorem dataPort_eq (irq : BitVec 8) : dataPort irq = 0x21 := ite_self _

/-- What is written there once the controller is initialised are its masks. -/
theorem ioOutb_masks {s : Pics} (hphase : s.pic1.phase = .mask) (m : BitVec 8) :
    ioOutb 0x21 m s = { s with pic1 := { s.pic1 with mask := m } } := by
  simp [ioOutb, Controller.data, hphase]

/-- The bit of a line in its register. -/
theorem toNat_and_seven (line : Fin 16) : (BitVec.ofNat 8 line &&& 7).toNat = line.val % 8 := by
  revert line
  decide

/-- **A call** changes one bit of the first mask register. -/
theorem LineCall.run_eq (c : LineCall) {s : Pics} (hphase : s.pic1.phase = .mask) :
    ∃ m, c.run s = .ok { s with pic1 := { s.pic1 with mask := m } } ∧
      ∀ i, m.getLsbD i = if i = c.line.val % 8 then c.masks else s.pic1.mask.getLsbD i := by
  have hlt : c.line.val % 8 < 8 := Nat.mod_lt _ (by decide)
  have hwrite := ioOutb_masks hphase
  cases hmasks : c.masks with
  | true =>
    refine ⟨s.pic1.mask ||| 1#8 <<< (c.line.val % 8), ?_, fun i => (getLsbD_mask _ (Or.inl hlt)).1⟩
    rw [LineCall.run, hmasks, if_pos rfl, picMask, if_neg Bool.false_ne_true, oldPicMask]
    simp only [dataPort_eq, toNat_and_seven, hwrite]
    rfl
  | false =>
    refine ⟨s.pic1.mask &&& ~~~(1#8 <<< (c.line.val % 8)), ?_,
      fun i => (getLsbD_mask _ (Or.inl hlt)).2⟩
    rw [LineCall.run, hmasks, if_neg Bool.false_ne_true, picUnmask, if_neg Bool.false_ne_true,
      oldPicUnmask]
    simp only [dataPort_eq, toNat_and_seven, hwrite]
    rfl

/-- **Calls** on a line and on the one eight lines above change the same bit. -/
theorem runCalls_eq (calls : List LineCall) {s : Pics} (hphase : s.pic1.phase = .mask) :
    ∃ m, runCalls calls s = .ok { s with pic1 := { s.pic1 with mask := m } } ∧
      ∀ i < 8, m.getLsbD i =
        calls.foldl (fun masked c => if c.line.val % 8 = i then c.masks else masked)
          (s.pic1.mask.getLsbD i) := by
  induction calls generalizing s with
  | nil => exact ⟨s.pic1.mask, rfl, fun i _ => rfl⟩
  | cons c calls ih =>
    obtain ⟨m₁, hrun, hbits⟩ := c.run_eq hphase
    obtain ⟨m, hruns, hrest⟩ := ih (s := { s with pic1 := { s.pic1 with mask := m₁ } }) hphase
    refine ⟨m, ?_, fun i hi => ?_⟩
    · simp [runCalls, hrun, hruns, bind, Except.bind]
    · rw [hrest i hi, List.foldl_cons, hbits]
      simp only [eq_comm]

/-- **The masks follow the calls** exactly when the second controller has its vector base and the
masks asked for already, and no call on one of its lines comes in the way of a call on the line of
the first controller with the same bit. -/
theorem followsCalls_iff (s : Pics) (calls : List LineCall) :
    FollowsCalls s calls ↔ s.pic2.base = 0x28 ∧
      (∀ line : Fin 16, 8 ≤ line.val →
        s.pic2.mask.getLsbD (line - 8) = lastMasks (· = line) calls) ∧
      ∀ line : Fin 16, line.val < 8 →
        lastMasks (fun l => l.val % 8 = line) calls = lastMasks (· = line) calls := by
  obtain ⟨m, hrun, hbits⟩ := runCalls_eq calls (s := oldPicInit s) rfl
  have hfirst : ∀ line : Fin 16, line.val < 8 →
      m.getLsbD line = lastMasks (fun l => l.val % 8 = line) calls := by
    intro line hlt
    rw [hbits line hlt]
    have hset : (oldPicInit s).pic1.mask.getLsbD line = true := by
      rw [oldPicInit_eq]
      show (0xff#8).getLsbD line = true
      revert line
      decide
    simp [lastMasks, hset]
  constructor
  · rintro ⟨s', hok, -, hbase, hmasked⟩
    rw [hrun, Except.ok.injEq] at hok
    subst hok
    refine ⟨hbase, fun line hge => ?_, fun line hlt => ?_⟩
    · rw [← hmasked line, Pics.masked, if_neg (by omega)]
      rfl
    · rw [← hfirst line hlt, ← hmasked line, Pics.masked, if_pos hlt]
  · rintro ⟨hbase, hsecond, hsame⟩
    refine ⟨_, hrun, rfl, hbase, fun line => ?_⟩
    by_cases hlt : line.val < 8
    · rw [Pics.masked, if_pos hlt, ← hsame line hlt]
      exact hfirst line hlt
    · rw [Pics.masked, if_neg hlt]
      exact hsecond line (by omega)

/-- The vector base `0x70`, which the firmware gives to the second controller, stays. -/
theorem not_followsCalls : ∃ s, ¬ FollowsCalls s [{ line := 8, masks := false }] := by
  let c : Controller := { phase := .mask, base := 0x70, cascade := 0, mode := 0, mask := 0xff }
  refine ⟨{ pic1 := c, pic2 := c }, ?_⟩
  rintro ⟨s', hrun, -, hbase, -⟩
  obtain ⟨m, hstate, -⟩ := runCalls_eq [{ line := 8, masks := false }]
    (s := oldPicInit { pic1 := c, pic2 := c }) rfl
  rw [hstate, Except.ok.injEq] at hrun
  subst hrun
  exact absurd (show (0x70 : BitVec 8) = 0x28 from hbase) (by decide)

end Mimik.Pic
