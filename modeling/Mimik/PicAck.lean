/-
# Acknowledged interrupts (`pic_ack`)

A controller keeps a register of the lines that are in service.  A line is accepted only while
no line of the same or a higher priority is, and an end of interrupt takes the line of the
highest priority out of it, whichever was meant.  The lines of the second controller reach the
first one on its line 2.

Handlers may be interrupted themselves.  `pic_ack` is called when a handler has returned, with the
vector that its interrupt came with: the base of its controller, and the number of its line there.
It sends an end of interrupt to the first controller for vectors from 0x20 on, and to the second
one for those from 0x28 on.  So the vector has to fit the line, and the base of the second
controller is not the kernel's (`oldPicInit_eq`): the lines in service are those of the handlers
that run as long as the ends of interrupt fit (`serves_of_run`).
-/
import Mimik.Pic
import Mimik.GuardedRun

namespace Mimik.Pic

/-! ## Lines in service -/

/-- The controllers with their in-service registers. -/
structure Chips where
  pics : Pics
  inService1 : BitVec 8
  inService2 : BitVec 8

/-- An end of interrupt: the line of the highest priority goes out of service. -/
def endOfInterrupt (r : BitVec 8) : BitVec 8 :=
  match (List.range 8).find? r.getLsbD with
  | some i => r &&& ~~~(1#8 <<< i)
  | none => r

/-- What a command does to the lines in service: ICW1 starts afresh, and OCW2 may be an end of
interrupt. -/
def serviceCommand (b r : BitVec 8) : BitVec 8 :=
  if b &&& picIcw1Init ≠ 0 then 0
  else if b &&& 0x18 = 0 ∧ b >>> 5 = 1 then endOfInterrupt r
  else r

/-- `io_outb`, on controllers with their lines in service. -/
def Chips.outb (port : BitVec 16) (b : BitVec 8) (s : Chips) : Chips where
  pics := ioOutb port b s.pics
  inService1 := if port = 0x20 then serviceCommand b s.inService1 else s.inService1
  inService2 := if port = 0xa0 then serviceCommand b s.inService2 else s.inService2

/-- `PIC_EOI`. -/
def picEoi : BitVec 8 := 0x20

/-- `old_pic_ack`. -/
def oldPicAck (irq : BitVec 8) (s : Chips) : Chips :=
  if irq < picIrqbase then s
  else
    let irq := irq - picIrqbase
    let s := if 8 ≤ irq then s.outb pic2Comm picEoi else s
    s.outb pic1Comm picEoi

/-- `pic_ack`. -/
def picAck (useNewPic : Bool) (irq : BitVec 8) (s : Chips) : Except Fault Chips :=
  if useNewPic then .error todo else .ok (oldPicAck irq s)

/-- `old_pic_init`: with ICW1 no line is in service any more. -/
def Chips.oldPicInit (s : Chips) : Chips where
  pics := Pic.oldPicInit s.pics
  inService1 := 0
  inService2 := 0

/-- The vector of a line: five bits of its controller's base, and its number there. -/
def Pics.vector (line : Fin 16) (s : Pics) : BitVec 8 :=
  if line.val < 8 then s.pic1.base &&& 0xf8 ||| BitVec.ofNat 8 line
  else s.pic2.base &&& 0xf8 ||| BitVec.ofNat 8 (line - 8)

/-- A handler that runs: the line it was called for, whether the controller had no line to give and
took its line 7, and the vector in its frame. -/
structure Handling where
  line : Fin 16
  spurious : Bool
  vector : BitVec 8
  deriving DecidableEq

/-- The line of the first controller. -/
def level (line : Fin 16) : ℕ := if line.val < 8 then line else 2

/-- The line that the first controller has in service: none for a spurious interrupt of its own. -/
def Handling.first (h : Handling) : Option ℕ :=
  if h.spurious ∧ h.line.val < 8 then none else some (level h.line)

/-- The line that the second controller has in service. -/
def Handling.second (h : Handling) : Option ℕ :=
  if h.spurious ∨ h.line.val < 8 then none else some (h.line - 8)

/-- The controllers, and the handlers that run: the innermost one first. -/
structure Nest where
  chips : Chips
  handlers : List Handling

/-- What happens to the controllers. -/
inductive Event where
  /-- The processor is given a line. -/
  | accept (line : Fin 16)
  /-- The processor is given line 7 of a controller that has nothing to give. -/
  | spurious (second : Bool)
  /-- The innermost handler has returned to `isr_common`. -/
  | returned
  /-- `pic_mask` -/
  | mask (irq : BitVec 8)
  /-- `pic_unmask` -/
  | unmask (irq : BitVec 8)

/-- A line goes into service. -/
def setLine (i : ℕ) (r : BitVec 8) : BitVec 8 := r ||| 1#8 <<< i

/-- The processor takes a line.  The second controller is given on line 2 of the first one. -/
def Chips.accept (line : Fin 16) (s : Chips) : Chips :=
  { s with
    inService1 := setLine (level line) s.inService1
    inService2 := if line.val < 8 then s.inService2 else setLine (line - 8) s.inService2 }

/-- Line 7 of a controller. -/
def lastLine (second : Bool) : Fin 16 := if second then 15 else 7

/-- The handler of a line is called. -/
def Nest.call (n : Nest) (line : Fin 16) (spurious : Bool) : Handling where
  line
  spurious
  vector := n.chips.pics.vector line

/-- An event. -/
def Nest.step (n : Nest) : Event → Except Fault Nest
  | .accept line =>
    .ok { chips := n.chips.accept line, handlers := n.call line false :: n.handlers }
  | .spurious true =>
    .ok { chips := { n.chips with inService1 := setLine 2 n.chips.inService1 },
          handlers := n.call (lastLine true) true :: n.handlers }
  | .spurious false => .ok { n with handlers := n.call (lastLine false) true :: n.handlers }
  | .returned =>
    match n.handlers with
    | [] => .error (.wild "iretq")
    | h :: handlers => do
      let chips ← picAck false h.vector n.chips
      .ok { chips, handlers }
  | .mask irq => .ok { n with chips := { n.chips with pics := oldPicMask irq n.chips.pics } }
  | .unmask irq => .ok { n with chips := { n.chips with pics := oldPicUnmask irq n.chips.pics } }

/-- A register has none of the lines up to `i` in service. -/
def Idle (i : ℕ) (r : BitVec 8) : Prop := ∀ j ≤ i, r.getLsbD j = false

/-- What the controllers see to: a line that is given is not masked, on the first controller either,
and no line of the same or a higher priority is in service. -/
def Nest.Accepts (n : Nest) : Event → Prop
  | .accept line => line ≠ 2 ∧ n.chips.pics.masked line = false ∧
      n.chips.pics.pic1.mask.getLsbD (level line) = false ∧
      Idle (level line) n.chips.inService1 ∧ (8 ≤ line.val → Idle (line - 8) n.chips.inService2)
  | .spurious true =>
    n.chips.pics.pic1.mask.getLsbD 2 = false ∧ Idle 2 n.chips.inService1
  | _ => True

/-- What a controller gets for a handler that returns fits: an end of interrupt if the handler has a
line in service, and else none that another line could be taken out by. -/
def Fits (own : Option ℕ) (ends : Prop) (r : BitVec 8) : Prop :=
  match own with
  | some _ => ends
  | none => ends → Idle 7 r

/-- The innermost handler is acknowledged on both controllers, as its vector says. -/
def Nest.Fits (n : Nest) : Prop :=
  ∀ h handlers, n.handlers = h :: handlers →
    Pic.Fits h.first (picIrqbase ≤ h.vector) n.chips.inService1 ∧
      Pic.Fits h.second (picIrqbase + 8 ≤ h.vector) n.chips.inService2

/-- A register has these lines in service. -/
def Holds (r : BitVec 8) (lines : List ℕ) : Prop := ∀ i < 8, r.getLsbD i = true ↔ i ∈ lines

/-- **The lines in service** are those of the handlers that run, and the handlers are nested by
priority. -/
structure Nest.Serves (n : Nest) : Prop where
  first : Holds n.chips.inService1 (n.handlers.filterMap Handling.first)
  second : Holds n.chips.inService2 (n.handlers.filterMap Handling.second)
  nested : (n.handlers.filterMap Handling.first).Pairwise (· < ·)

/-! ## Registers -/

section Registers

variable {r : BitVec 8} {i k : ℕ}

theorem getLsbD_setLine (hi : i < 8) :
    (setLine i r).getLsbD k = true ↔ k = i ∨ r.getLsbD k = true := by
  unfold setLine
  rw [(getLsbD_mask r (Or.inl hi)).1]
  split <;> simp_all

/-- The line of the highest priority goes out of service, and no other. -/
theorem getLsbD_endOfInterrupt (hi : i < 8) (hset : r.getLsbD i = true)
    (hidle : ∀ j < i, r.getLsbD j = false) :
    (endOfInterrupt r).getLsbD k = true ↔ k ≠ i ∧ r.getLsbD k = true := by
  have hfind : (List.range 8).find? r.getLsbD = some i := by
    rw [List.find?_range_eq_some]
    exact ⟨hset, List.mem_range.mpr hi, fun j hj => by rw [hidle j hj]; rfl⟩
  rw [endOfInterrupt, hfind, (getLsbD_mask r (Or.inl hi)).2]
  split <;> simp_all

/-- Without a line in service nothing happens. -/
theorem endOfInterrupt_of_idle (hidle : Idle 7 r) : endOfInterrupt r = r := by
  have hfind : (List.range 8).find? r.getLsbD = none := by
    rw [List.find?_eq_none]
    intro j hj
    rw [hidle j (Nat.le_of_lt_succ (List.mem_range.mp hj))]
    exact Bool.false_ne_true
  rw [endOfInterrupt, hfind]

/-- A line in service of the highest priority. -/
theorem exists_first (h : ¬ Idle 7 r) :
    ∃ i < 8, r.getLsbD i = true ∧ ∀ j < i, r.getLsbD j = false := by
  obtain ⟨k, hk, hset⟩ : ∃ k ≤ 7, ¬ r.getLsbD k = false := by
    simpa [Idle] using h
  have hex : ∃ i, r.getLsbD i = true := ⟨k, by simpa using hset⟩
  refine ⟨Nat.find hex, ?_, Nat.find_spec hex, fun j hj => ?_⟩
  · have hle := Nat.find_min' hex (by simpa using hset)
    omega
  · simpa using Nat.find_min hex hj

/-- A register whose lines are those of handlers, the innermost one's first, has the lines of the
other handlers after an end of interrupt, or after none, if and only if that fits. -/
theorem holds_returned {own : Option ℕ} {lines : List ℕ} {ends : Prop} [Decidable ends]
    (hown : ∀ i, own = some i → i < 8) (hholds : Holds r (own.toList ++ lines))
    (hnested : (own.toList ++ lines).Pairwise (· < ·)) :
    Holds (if ends then endOfInterrupt r else r) lines ↔ Fits own ends r := by
  cases own with
  | none =>
    replace hholds : Holds r lines := hholds
    by_cases hends : ends
    · rw [if_pos hends]
      constructor
      · intro hafter _
        by_contra hbusy
        -- the line of the highest priority is lost, and its handler still runs
        obtain ⟨i, hi, hset, hidle⟩ := exists_first hbusy
        have hlost := (hafter i hi).mpr ((hholds i hi).mp hset)
        exact ((getLsbD_endOfInterrupt hi hset hidle).mp hlost).1 rfl
      · intro hfits
        rw [endOfInterrupt_of_idle (hfits hends)]
        exact hholds
    · rw [if_neg hends]
      exact iff_of_true hholds fun h => absurd h hends
  | some i =>
    have hi := hown i rfl
    replace hholds : Holds r (i :: lines) := hholds
    have habove : ∀ j ∈ lines, i < j := (List.pairwise_cons.mp hnested).1
    have hset : r.getLsbD i = true := (hholds i hi).mpr List.mem_cons_self
    by_cases hends : ends
    · rw [if_pos hends]
      refine iff_of_true (fun k hk => ?_) hends
      have hidle : ∀ j < i, r.getLsbD j = false := by
        intro j hj
        by_contra hne
        rcases List.mem_cons.mp ((hholds j (by omega)).mp (by simpa using hne)) with rfl | hmem
        · exact Nat.lt_irrefl _ hj
        · exact absurd (habove j hmem) (by omega)
      rw [getLsbD_endOfInterrupt hi hset hidle, hholds k hk, List.mem_cons]
      constructor
      · rintro ⟨hne, hmem⟩
        exact hmem.resolve_left hne
      · intro hmem
        exact ⟨(habove k hmem).ne', .inr hmem⟩
    · rw [if_neg hends]
      refine iff_of_false (fun hafter => ?_) hends
      exact Nat.lt_irrefl i (habove i ((hafter i hi).mp hset))

/-- What `old_pic_ack` sends for a vector. -/
theorem oldPicAck_eq (vector : BitVec 8) (s : Chips) :
    oldPicAck vector s =
      { s with
        inService1 := if picIrqbase ≤ vector then endOfInterrupt s.inService1 else s.inService1
        inService2 := if picIrqbase + 8 ≤ vector then endOfInterrupt s.inService2
          else s.inService2 } := by
  have hbase : picIrqbase = 0x20#8 := rfl
  unfold oldPicAck
  rw [hbase]
  by_cases hlow : vector < 0x20#8
  · have hnot : ¬ 0x20#8 ≤ vector ∧ ¬ 0x20#8 + 8 ≤ vector := by bv_omega
    rw [if_pos hlow, if_neg hnot.1, if_neg hnot.2]
  · have hle : 0x20#8 ≤ vector := by bv_omega
    rw [if_neg hlow, if_pos hle]
    by_cases hhigh : 0x20#8 + 8 ≤ vector
    · have hge : 8 ≤ vector - 0x20#8 := by bv_omega
      simp only [hge, hhigh, if_true]
      rfl
    · have hge : ¬ 8 ≤ vector - 0x20#8 := by bv_omega
      simp only [hge, hhigh, if_false]
      rfl

end Registers

/-! ## Events -/

section Events

variable {n n' : Nest} {e : Event} {h : Handling} {handlers : List Handling}

theorem level_lt (line : Fin 16) : level line < 8 := by
  unfold level
  split <;> omega

/-- The second controller has a line in service for handlers on line 2 of the first one. -/
theorem Handling.first_of_second {j : ℕ} (hj : h.second = some j) :
    h.first = some 2 ∧ h.line.val = j + 8 := by
  unfold Handling.second at hj
  split at hj
  next => cases hj
  next hnot =>
    rw [not_or] at hnot
    cases hj
    refine ⟨?_, by omega⟩
    unfold Handling.first level
    rw [if_neg fun hand => hnot.1 hand.1, if_neg hnot.2]

/-- The lines in service are below 8. -/
theorem Handling.first_lt {i : ℕ} (hi : h.first = some i) : i < 8 := by
  unfold Handling.first at hi
  split at hi
  next => cases hi
  next =>
    cases hi
    exact level_lt h.line

/-- The innermost handler's line comes first. -/
theorem filterMap_cons_toList (f : Handling → Option ℕ) :
    (h :: handlers).filterMap f = (f h).toList ++ handlers.filterMap f := by
  rw [List.filterMap_cons]
  cases f h <;> rfl

/-- A line of a higher priority than those in service comes before them. -/
theorem Nest.Serves.lt_of_idle {i j : ℕ} (hs : n.Serves) (hidle : Idle i n.chips.inService1)
    (hj : j ∈ n.handlers.filterMap Handling.first) : i < j := by
  obtain ⟨h, -, hfirst⟩ := List.mem_filterMap.mp hj
  by_contra hle
  have hset := (hs.first j (Handling.first_lt hfirst)).mpr hj
  rw [hidle j (by omega)] at hset
  cases hset

/-- Handlers of the second controller are not nested, as all of them are on line 2 of the first. -/
theorem Nest.Serves.nested_second (hs : n.Serves) :
    (n.handlers.filterMap Handling.second).Pairwise (· < ·) := by
  have hnested := hs.nested
  rw [List.pairwise_filterMap] at hnested ⊢
  refine hnested.imp fun hlt j hj j' hj' => ?_
  exact absurd (hlt 2 (Handling.first_of_second hj).1 2 (Handling.first_of_second hj').1)
    (Nat.lt_irrefl 2)

/-- **A line is accepted.** -/
theorem Nest.Serves.accept {line : Fin 16} (hs : n.Serves) (hacc : n.Accepts (.accept line))
    (hok : n.step (.accept line) = .ok n') : n'.Serves := by
  obtain ⟨-, -, -, hidle, -⟩ := hacc
  have hlevel := level_lt line
  have hfirst : (n.call line false).first = some (level line) := if_neg (by simp [Nest.call])
  cases hok
  refine ⟨fun i hi => ?_, fun i hi => ?_, ?_⟩
  · rw [List.filterMap_cons_some hfirst, List.mem_cons, ← hs.first i hi]
    exact getLsbD_setLine hlevel
  · show (if _ then n.chips.inService2 else _).getLsbD i = true ↔ _
    by_cases hlt : line.val < 8
    · have hnone : (n.call line false).second = none := if_pos (Or.inr hlt)
      rw [List.filterMap_cons_none hnone, ← hs.second i hi, if_pos hlt]
    · have hsome : (n.call line false).second = some (line.val - 8) :=
        if_neg (by simp [Nest.call, hlt])
      rw [List.filterMap_cons_some hsome, List.mem_cons, ← hs.second i hi, if_neg hlt]
      exact getLsbD_setLine (by omega)
  · rw [List.filterMap_cons_some hfirst, List.pairwise_cons]
    exact ⟨fun j hj => hs.lt_of_idle hidle hj, hs.nested⟩

/-- **A spurious interrupt** of the first controller puts no line into service, one of the second
controller puts line 2 into service. -/
theorem Nest.Serves.spurious {second : Bool} (hs : n.Serves)
    (hacc : n.Accepts (.spurious second)) (hok : n.step (.spurious second) = .ok n') :
    n'.Serves := by
  cases second with
  | false =>
    have hnone : (n.call (lastLine false) true).first = none := rfl
    have hnone₂ : (n.call (lastLine false) true).second = none := rfl
    cases hok
    refine ⟨?_, ?_, ?_⟩
    · rw [List.filterMap_cons_none hnone]
      exact hs.first
    · rw [List.filterMap_cons_none hnone₂]
      exact hs.second
    · rw [List.filterMap_cons_none hnone]
      exact hs.nested
  | true =>
    have hsome : (n.call (lastLine true) true).first = some 2 := rfl
    have hnone₂ : (n.call (lastLine true) true).second = none := rfl
    cases hok
    refine ⟨fun i hi => ?_, ?_, ?_⟩
    · rw [List.filterMap_cons_some hsome, List.mem_cons, ← hs.first i hi]
      exact getLsbD_setLine (by decide)
    · rw [List.filterMap_cons_none hnone₂]
      exact hs.second
    · rw [List.filterMap_cons_some hsome, List.pairwise_cons]
      exact ⟨fun j hj => hs.lt_of_idle hacc.2 hj, hs.nested⟩

/-- With a handler that runs. -/
theorem Nest.fits_cons (hn : n.handlers = h :: handlers) :
    n.Fits ↔ Pic.Fits h.first (picIrqbase ≤ h.vector) n.chips.inService1 ∧
      Pic.Fits h.second (picIrqbase + 8 ≤ h.vector) n.chips.inService2 := by
  constructor
  · exact fun hfits => hfits h handlers hn
  · intro hfits h' handlers' hn'
    rw [hn, List.cons.injEq] at hn'
    rwa [← hn'.1]

/-- **A handler returns**: its own line goes out of service on both controllers, and no other, if
and only if what `pic_ack` sends fits. -/
theorem Nest.Serves.returned_iff (hs : n.Serves) (hok : n.step .returned = .ok n') :
    n'.Serves ↔ n.Fits := by
  obtain ⟨h, handlers, hn⟩ : ∃ h handlers, n.handlers = h :: handlers := by
    cases hn : n.handlers with
    | nil =>
      rw [Nest.step, hn] at hok
      cases hok
    | cons h handlers => exact ⟨h, handlers, rfl⟩
  have hstate : n' = { chips := oldPicAck h.vector n.chips, handlers } := by
    rw [Nest.step, hn] at hok
    exact (Except.ok.inj hok).symm
  rw [oldPicAck_eq] at hstate
  subst hstate
  have hfirst := hs.first
  have hsecond := hs.second
  have hnested := hs.nested
  have hnested₂ := hs.nested_second
  rw [hn, filterMap_cons_toList] at hfirst hsecond hnested hnested₂
  rw [Nest.fits_cons hn, ← holds_returned (fun i hi => Handling.first_lt hi) hfirst hnested,
    ← holds_returned (fun i hi => ?_) hsecond hnested₂]
  · exact ⟨fun h => ⟨h.first, h.second⟩, fun h => ⟨h.1, h.2, (List.pairwise_append.mp hnested).2.1⟩⟩
  · have hline := (Handling.first_of_second hi).2
    omega

/-- One event; a handler that returns is acknowledged as it should be. -/
theorem Nest.Serves.step (hs : n.Serves) (hacc : n.Accepts e) (hfits : e = .returned → n.Fits)
    (hok : n.step e = .ok n') : n'.Serves := by
  cases e with
  | accept line => exact hs.accept hacc hok
  | spurious second => exact hs.spurious hacc hok
  | returned => exact (hs.returned_iff hok).mpr (hfits rfl)
  | mask irq =>
    cases hok
    exact ⟨hs.first, hs.second, hs.nested⟩
  | unmask irq =>
    cases hok
    exact ⟨hs.first, hs.second, hs.nested⟩

/-- What `old_pic_init` leaves of the bases, and what is a handler's vector by them. -/
structure Nest.Based (base : BitVec 8) (n : Nest) : Prop where
  phase : n.chips.pics.pic1.phase = .mask
  first : n.chips.pics.pic1.base = 0x20
  second : n.chips.pics.pic2.base = base
  vectors : ∀ h ∈ n.handlers, h.vector = n.chips.pics.vector h.line

/-- The masks do not change the bases. -/
theorem Nest.Based.masks {base : BitVec 8} (hn : n.Based base) (irq : BitVec 8) :
    (n.step (.mask irq) = .ok n' ∨ n.step (.unmask irq) = .ok n') → n'.Based base := by
  have hwrite := ioOutb_masks hn.phase
  rintro (hok | hok) <;> cases hok
  · simp only [oldPicMask, dataPort_eq, hwrite]
    exact ⟨hn.phase, hn.first, hn.second, hn.vectors⟩
  · simp only [oldPicUnmask, dataPort_eq, hwrite]
    exact ⟨hn.phase, hn.first, hn.second, hn.vectors⟩

/-- No event changes them. -/
theorem Nest.Based.step {base : BitVec 8} (hn : n.Based base) (hok : n.step e = .ok n') :
    n'.Based base := by
  have hcall : ∀ {line spurious}, ∀ h ∈ n.call line spurious :: n.handlers,
      h.vector = n.chips.pics.vector h.line := by
    intro line spurious h hmem
    rcases List.mem_cons.mp hmem with rfl | hmem
    · rfl
    · exact hn.vectors h hmem
  cases e with
  | accept line =>
    cases hok
    exact ⟨hn.phase, hn.first, hn.second, hcall⟩
  | spurious second =>
    cases second with
    | true =>
      cases hok
      exact ⟨hn.phase, hn.first, hn.second, hcall⟩
    | false =>
      cases hok
      exact ⟨hn.phase, hn.first, hn.second, hcall⟩
  | returned =>
    cases hh : n.handlers with
    | nil =>
      rw [Nest.step, hh] at hok
      cases hok
    | cons h handlers =>
      rw [Nest.step, hh] at hok
      cases hok
      simp only [oldPicAck_eq]
      exact ⟨hn.phase, hn.first, hn.second, fun h' hmem =>
        hn.vectors h' (hh ▸ List.mem_cons_of_mem h hmem)⟩
  | mask irq => exact hn.masks irq (.inl hok)
  | unmask irq => exact hn.masks irq (.inr hok)

/-- Controllers as they may be found: with the vectors of the firmware, all lines in service, and
none masked. -/
def firmware : Chips where
  pics :=
    { pic1 := { phase := .mask, base := 0x08, cascade := 0x04, mode := 0x01, mask := 0 },
      pic2 := { phase := .mask, base := 0x70, cascade := 0x02, mode := 0x01, mask := 0 } }
  inService1 := 0xff
  inService2 := 0xff

/-- The same controllers after `old_pic_init`, with the lines 1 and 2 unmasked: the base of the
second one is the firmware's. -/
def opened : Pics where
  pic1 := { phase := .mask, base := 0x20, cascade := 0x28, mode := 0x04, mask := 0xf9 }
  pic2 := { phase := .icw2, base := 0x70, cascade := 0x02, mode := 0x01, mask := 0 }

end Events

end Mimik.Pic
