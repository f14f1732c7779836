/-
# Page tables are not handed out

`create_pt` takes its pages from `pm_request_page`, which keeps no record of what they are for.
That a page table is not given to somebody else rests on its lock: a page that is
locked is not returned, and nobody releases a page that is not theirs.

The runs considered are on the two managers together: operations of clients of the allocator
on the first 128 MiB, calls of `vm.c` on the kernel's table, and calls of `mm_map`.
In such runs the page tables stay locked, and no client holds one (`tables_owned_of_run`), when
clients release only pages that they locked or requested themselves.
-/
import Mimik.PmGrow
import Mimik.MmFresh
import Mimik.VmReserved

namespace Mimik.Vm

open FaultState

/-! ## What is drawn -/

section Drawing

variable {env : Pm.PmEnv} {depth : ℕ} {p p' : Pm.PmState} {frames : List PAddr}

/-- The page of a frame. -/
def framePage (f : PAddr) : ℕ := Pm.pageOf f.toNat

/-- What drawing frames does: pages that were free are locked, each of them once, and no other
bits change. -/
structure Drawn (p p' : Pm.PmState) (frames : List PAddr) : Prop where
  count : Pm.InCount p'
  page : ∀ f ∈ frames, ptePaddr f = f ∧ framePage f < Pm.bitmapSize ∧
    p.pageBit (framePage f) = false
  nodup : frames.Nodup
  bits : ∀ i, p'.pageBit i = true ↔ p.pageBit i = true ∨ ∃ f ∈ frames, framePage f = i

theorem Draws.onlyLocks (h : Draws env depth p frames p') : Pm.OnlyLocks p p' := by
  induction h with
  | nil => exact fun _ hi => hi
  | cons hreq _ ih => exact (Pm.requestLocks env depth _ _ _ hreq).trans ih

/-- A page of the first bitmap as a frame. -/
theorem framePage_ofNat {c : ℕ} (hc : c < Pm.bitmapSize) :
    framePage (BitVec.ofNat 64 (c * pageSize)) = c ∧
      ptePaddr (BitVec.ofNat 64 (c * pageSize)) = BitVec.ofNat 64 (c * pageSize) := by
  rw [Pm.bitmapSize_eq] at hc
  have hnat : (BitVec.ofNat 64 (c * pageSize)).toNat = c * pageSize := by
    rw [BitVec.toNat_ofNat, pageSize]
    exact Nat.mod_eq_of_lt (by omega)
  constructor
  · rw [framePage, hnat]
    exact Pm.pageOf_mul c
  · apply ptePaddr_of_page
    · rw [hnat]
      exact Nat.mul_mod_left c pageSize
    · rw [hnat, pageSize]
      omega

/-- **Drawing frames**, when a page of the first bitmap is left in the end. -/
theorem Draws.drawn (hdepth : Pm.bitmapSize < depth) (h : Draws env depth p frames p')
    (hs : Pm.InCount p) (hleft : 0 < p'.freePages) : Drawn p p' frames := by
  induction h with
  | nil p => exact ⟨hs, fun _ hf => absurd hf List.not_mem_nil, List.nodup_nil, by simp⟩
  | @cons p p₁ p' a frames hreq hrest ih =>
    have hleft₁ : 0 < p₁.freePages := lt_of_lt_of_le hleft (Pm.freePages_le hrest.onlyLocks)
    obtain ⟨c, hready, rfl, hcount, hbits⟩ := hs.of_request hdepth hreq hleft₁
    obtain ⟨hpage, hal⟩ := framePage_ofNat hready.lt
    have hbit : ∀ i, p₁.pageBit i = true ↔ p.pageBit i = true ∨ i = c := by
      intro i
      rw [hbits.bits, List.map_singleton, Pm.pageOf_mul]
      by_cases hi : i = c
      · simp [hi]
      · simp [hi]
    obtain ⟨hcount', hpages, hnodup, hbits'⟩ := ih hcount hleft
    refine ⟨hcount', ?_, ?_, fun i => ?_⟩
    · intro f hf
      rcases List.mem_cons.mp hf with rfl | hf
      · rw [hpage]
        exact ⟨hal, hready.lt, hready.free⟩
      · obtain ⟨half, hlt, hclear⟩ := hpages f hf
        refine ⟨half, hlt, ?_⟩
        by_contra hset
        rw [(hbit _).mpr (.inl (by simpa using hset))] at hclear
        cases hclear
    · refine List.nodup_cons.mpr ⟨fun hmem => ?_, hnodup⟩
      obtain ⟨-, -, hclear⟩ := hpages _ hmem
      rw [hpage, (hbit c).mpr (.inr rfl)] at hclear
      cases hclear
    · rw [hbits', hbit, List.exists_mem_cons_iff, hpage, or_assoc, eq_comm (a := i)]

end Drawing

/-! ## Runs -/

/-- The managers, and what is not part of the source: the pages that clients of the allocator
have locked or requested, and not released since. -/
structure MmWorld extends MmState where
  held : Finset ℕ

/-- What happens to the managers. -/
inductive MmEvent where
  /-- An operation of a client of the allocator. -/
  | pm (e : Pm.PmEvent)
  | vm (c : VmCall)
  | mmMap (fuel hint size : ℕ) (flags : Flags)

/-- The pages that clients hold after an operation of theirs. -/
def heldAfter (held : Finset ℕ) (p p' : Pm.PmState) : Finset ℕ :=
  (Finset.range Pm.bitmapSize).filter fun i =>
    p'.pageBit i = true ∧ (i ∈ held ∨ p.pageBit i = false)

variable (env : Pm.PmEnv) (depth : ℕ) (tmpPaddr : PAddr) (layoutVaddrEnd : ℕ) (kpml4 : PAddr)

/-- The state after an event. -/
def mmStep (w : MmWorld) : MmEvent → Except Fault MmWorld
  | .pm e => (Pm.pmStep env depth w.pm e).map fun pm =>
      { w with pm, held := heldAfter w.held w.pm pm }
  | .vm c =>
    (callTogether kpml4 (c.run (together env depth tmpPaddr) (.table kpml4)) w.toMmState).map
      fun r => { r.2 with held := w.held }
  | .mmMap fuel hint size flags =>
    (callTogether kpml4 (mmMap (together env depth tmpPaddr) fuel layoutVaddrEnd (.table kpml4)
      hint size flags) w.toMmState).map fun r => { r.2 with held := w.held }

/-- The event does not come to `tmp_pt`. -/
def MmStaysOut (w : MmWorld) : MmEvent → Prop
  | .pm _ => True
  | .vm (.flagPages vaddr pages flags) =>
      StaysOut tmpPaddr kpml4 w.vm (.flagPages vaddr pages flags)
  | e => ∀ w', mmStep env depth tmpPaddr layoutVaddrEnd kpml4 w e = .ok w' →
      tmpPaddr ∉ w'.vm.opened

/-- The clients stay below 128 MiB and release what they hold. -/
def ClientsOwn (w : MmWorld) : MmEvent → Prop
  | .pm e => Pm.LeavesFree w.pm e ∧
      ∀ a ∈ Pm.releasedAddrs e, w.pm.pageBit (Pm.pageOf a) = true → Pm.pageOf a ∈ w.held
  | .vm c => c.InRange
  | .mmMap _ _ _ _ => True

/-- The events of the runs considered. -/
structure MmGuard (w : MmWorld) (e : MmEvent) : Prop where
  clients : ClientsOwn w e
  staysOut : MmStaysOut env depth tmpPaddr layoutVaddrEnd kpml4 w e
  /-- A page of the first bitmap is left. -/
  leaves : ∀ w', mmStep env depth tmpPaddr layoutVaddrEnd kpml4 w e = .ok w' →
    0 < w'.pm.freePages

/-- A page that `vm.c` uses: `tmp_pt`, or a table of the kernel's tree. -/
def IsTable (s : VmState) (p : PAddr) : Prop :=
  p = tmpPaddr ∨ ∃ n ≤ 3, TableAt tmpPaddr s.tmpPt kpml4 s.mem n p

/-- **What is kept from event to event**: the managers are in order, the pages of the tables are
locked, and clients hold pages that are locked too, but none of these. -/
structure Owned (w : MmWorld) : Prop where
  count : Pm.InCount w.pm
  window : WindowOk w.vm.tmpPt w.vm.firstFreeTmpIndex
  ordered : Ordered tmpPaddr w.vm.tmpPt kpml4 w.vm.mem []
  tables : ∀ p, IsTable tmpPaddr kpml4 w.vm p → framePage p < Pm.bitmapSize ∧
    w.pm.pageBit (framePage p) = true ∧ framePage p ∉ w.held
  held : ∀ i ∈ w.held, w.pm.pageBit i = true

variable {env depth tmpPaddr layoutVaddrEnd kpml4} {w w' : MmWorld}

/-! ### An operation of a client -/

/-- A client clears no bits but those of the pages that it releases. -/
theorem bits_of_pmStep (hdepth : Pm.bitmapSize < depth) {p p' : Pm.PmState} {e : Pm.PmEvent}
    (hs : Pm.InCount p) (he : Pm.LeavesFree p e) (hok : Pm.pmStep env depth p e = .ok p') :
    Pm.InCount p' ∧ ∀ i, p.pageBit i = true → (∀ a ∈ Pm.releasedAddrs e, Pm.pageOf a ≠ i) →
      p'.pageBit i = true := by
  have hcount : Pm.InCount p' := by
    rcases hs.step env hdepth he with ⟨p₁, hok₁, hs₁⟩ | ⟨-, -, hstop⟩
    · rw [hok] at hok₁
      cases hok₁
      exact hs₁
    · rw [hok] at hstop
      cases hstop
  refine ⟨hcount, fun i hi hother => ?_⟩
  -- what an operation does to the bits of a list of addresses
  have hresult : ∀ {α : Type} {x : Except Fault (α × Pm.PmState)} {r : α} {p₁ : Pm.PmState}
      {as : List ℕ} {state : Bool}, Prod.snd <$> x = .ok p' → x = .ok (r, p₁) →
      Pm.SetsBits p p₁ as state → (state = false → ∀ a ∈ as, Pm.pageOf a ≠ i) →
      p'.pageBit i = true := by
    rintro α x r p₁ as state hmap rfl hbits hfar
    obtain rfl : p₁ = p' := Except.ok.inj hmap
    rw [hbits.bits i]
    split
    next hmem =>
      cases state with
      | true => rfl
      | false =>
        obtain ⟨a, ha, hpage⟩ := List.mem_map.mp hmem
        exact absurd hpage (hfar rfl a ha)
    next => exact hi
  cases e with
  | tryLockPage paddr =>
    obtain ⟨r, p₁, hlock, -, hbits⟩ := hs.pmTryLockPage env hdepth.le he.1 he.2
    exact hresult hok hlock hbits Bool.noConfusion
  | tryLockPages paddr bytes =>
    obtain ⟨hnear, j, hj, hspare⟩ := he
    obtain ⟨r, p₁, hlock, -, hbits⟩ := hs.pageRange (Pm.pmTryLockPage env depth) (· && ·)
      true (fun s => j ∈ s.freeSet) (fun a => Pm.toBitmap a = 0 ∧ j ≠ Pm.pageOf a)
      (by
        intro s a hs hkeep hallowed
        obtain ⟨r, s', hok, hs', hbits⟩ :=
          hs.pmTryLockPage env hdepth.le hallowed.1 ⟨j, hkeep, hallowed.2⟩
        refine ⟨r, s', hok, hs', ?_, hbits⟩
        rw [Pm.PmState.mem_freeSet] at hkeep ⊢
        refine ⟨hkeep.1, ?_⟩
        rw [hbits.bits j, if_neg (by simpa using hallowed.2)]
        exact hkeep.2)
      bytes hj fun a ha => ⟨hnear a ha, hspare a ha⟩
    exact hresult hok hlock hbits Bool.noConfusion
  | tryReleasePage paddr =>
    obtain ⟨r, p₁, hrelease, -, hbits⟩ := hs.pmTryReleasePage env depth he
    exact hresult hok hrelease hbits fun _ => hother
  | tryReleasePages paddr bytes =>
    obtain ⟨r, p₁, hrelease, -, hbits⟩ := hs.pageRange (Pm.pmTryReleasePage env depth) (· || ·)
      false (fun _ => True) (fun a => Pm.toBitmap a = 0)
      (by
        intro s a hs _ hallowed
        obtain ⟨r, s', hok, hs', hbits⟩ := hs.pmTryReleasePage env depth hallowed
        exact ⟨r, s', hok, hs', trivial, hbits⟩)
      bytes trivial he
    exact hresult hok hrelease hbits fun _ => hother
  | requestPage =>
    obtain ⟨⟨a, p₁⟩, hreq, hp₁⟩ : ∃ r, Pm.pmRequestPage env depth p = .ok r ∧ r.2 = p' := by
      rw [Pm.pmStep] at hok
      cases hreq : Pm.pmRequestPage env depth p with
      | error f =>
        rw [hreq] at hok
        cases hok
      | ok r =>
        rw [hreq] at hok
        exact ⟨r, rfl, Except.ok.inj hok⟩
    rw [← hp₁]
    exact Pm.requestLocks env depth p a p₁ hreq i hi
  | requestPages num => exact absurd he id
  | requestBytes bytes => exact absurd he id

/-- A page that is locked, and that no client holds, stays so. -/
theorem stays_of_client (hdepth : Pm.bitmapSize < depth) (hs : Pm.InCount w.pm) {e : Pm.PmEvent}
    (hguard : ClientsOwn w (.pm e))
    (hok : mmStep env depth tmpPaddr layoutVaddrEnd kpml4 w (.pm e) = .ok w') {i : ℕ}
    (hset : w.pm.pageBit i = true) (hfree : i ∉ w.held) :
    w'.pm.pageBit i = true ∧ i ∉ w'.held := by
  rw [mmStep] at hok
  cases hpm : Pm.pmStep env depth w.pm e with
  | error f =>
    rw [hpm] at hok
    cases hok
  | ok p' =>
    rw [hpm] at hok
    cases hok
    obtain ⟨-, hbits⟩ := bits_of_pmStep hdepth hs hguard.1 hpm
    refine ⟨hbits i hset fun a ha hpage => ?_, fun hmem => ?_⟩
    · -- a client that releases the page holds it
      exact hfree (hpage ▸ hguard.2 a ha (by rw [hpage]; exact hset))
    · obtain ⟨-, -, hheld | hclear⟩ := Finset.mem_filter.mp hmem
      · exact hfree hheld
      · rw [hset] at hclear
        cases hclear

/-- An operation of a client. -/
theorem Owned.client (hdepth : Pm.bitmapSize < depth) (h : Owned tmpPaddr kpml4 w)
    {e : Pm.PmEvent} (hguard : ClientsOwn w (.pm e))
    (hok : mmStep env depth tmpPaddr layoutVaddrEnd kpml4 w (.pm e) = .ok w') :
    Owned tmpPaddr kpml4 w' := by
  have hstays := fun i => stays_of_client hdepth h.count hguard hok (i := i)
  rw [mmStep] at hok
  cases hpm : Pm.pmStep env depth w.pm e with
  | error f =>
    rw [hpm] at hok
    cases hok
  | ok p' =>
    rw [hpm] at hok
    cases hok
    refine ⟨(bits_of_pmStep hdepth h.count hguard.1 hpm).1, h.window, h.ordered, fun p hp => ?_,
      fun i hi => (Finset.mem_filter.mp hi).2.1⟩
    obtain ⟨hlt, hset, hfree⟩ := h.tables p hp
    exact ⟨hlt, hstays _ hset hfree⟩

/-! ### A call of the virtual memory manager -/

/-- A call that keeps the tables in order, for all frames. -/
theorem Owned.lend {α : Type} {x : Prog Fault MmState α} {y : Prog Fault VmState α} {a : α}
    {s' : MmState} (hdepth : Pm.bitmapSize < depth) (h : Owned tmpPaddr kpml4 w)
    (hlends : Lends env depth x y) (hok : x w.toMmState = .ok (a, s'))
    (hleft : 0 < s'.pm.freePages)
    (hkeeps : ∀ frames rest, Ordered tmpPaddr w.vm.tmpPt kpml4 w.vm.mem frames →
      tmpPaddr ∉ frames → y { w.vm with frames } = .ok (a, { s'.vm with frames := rest }) →
      WindowOk s'.vm.tmpPt s'.vm.firstFreeTmpIndex ∧
        Ordered tmpPaddr s'.vm.tmpPt kpml4 s'.vm.mem rest) :
    Owned tmpPaddr kpml4 { s' with held := w.held } := by
  obtain ⟨drawn, hdraws, hy⟩ := hlends.back w.toMmState a s' hok
  obtain ⟨hcount, hpages, hnodup, hbits⟩ := hdraws.drawn hdepth h.count hleft
  have hframes : ∀ rest : List PAddr, rest.Nodup → (∀ g ∈ rest, ptePaddr g = g ∧ g ∉ drawn ∧
      ∀ n ≤ 3, ¬ TableAt tmpPaddr w.vm.tmpPt kpml4 w.vm.mem n g) →
      Ordered tmpPaddr w.vm.tmpPt kpml4 w.vm.mem (drawn ++ rest) := by
    intro rest hrest hnew
    refine ⟨h.ordered.oneLevel, fun f hf => ?_, fun f hf n hn hat => ?_, ?_⟩
    · rcases List.mem_append.mp hf with hf | hf
      · exact (hpages f hf).1
      · exact (hnew f hf).1
    · rcases List.mem_append.mp hf with hf | hf
      · -- a table is locked, and what was drawn was free
        obtain ⟨-, hset, -⟩ := h.tables f (.inr ⟨n, hn, hat⟩)
        rw [(hpages f hf).2.2] at hset
        cases hset
      · exact (hnew f hf).2.2 n hn hat
    · exact List.nodup_append'.mpr ⟨hnodup, hrest, fun f hf hf' => (hnew f hf').2.1 hf⟩
  have htmp : ∀ rest : List PAddr, (∀ g ∈ rest, g ≠ tmpPaddr) → tmpPaddr ∉ drawn ++ rest := by
    intro rest hrest hmem
    rcases List.mem_append.mp hmem with hmem | hmem
    · have hset := (h.tables tmpPaddr (.inl rfl)).2.1
      rw [(hpages _ hmem).2.2] at hset
      cases hset
    · exact hrest _ hmem rfl
  have hnil := hkeeps _ _ (hframes [] List.nodup_nil fun _ hg => absurd hg List.not_mem_nil)
    (htmp [] fun _ hg => absurd hg List.not_mem_nil) (hy [])
  -- a table that was none before was drawn: else it could have been the next frame
  have hback : ∀ n ≤ 3, ∀ p, TableAt tmpPaddr s'.vm.tmpPt kpml4 s'.vm.mem n p →
      IsTable tmpPaddr kpml4 w.vm p ∨ p ∈ drawn := by
    intro n hn p hp
    by_contra hnot
    obtain ⟨htable, hdrawn⟩ := not_or.mp hnot
    have hal : ptePaddr p = p := by
      cases hp with
      | root => exact absurd (.inr ⟨0, by omega, .root⟩) htable
      | step _ _ _ => exact ptePaddr_ptePaddr _
    have hone := hkeeps _ _ (hframes [p] (List.nodup_singleton p) fun g hg => by
      rw [List.mem_singleton.mp hg]
      exact ⟨hal, hdrawn, fun m hm hat => htable (.inr ⟨m, hm, hat⟩)⟩)
      (htmp [p] fun g hg => by
        rw [List.mem_singleton.mp hg]
        exact fun heq => htable (.inl heq)) (hy [p])
    exact hone.2.noTable p (List.mem_singleton_self p) n hn hp
  have hheld : ∀ i ∈ w.held, s'.pm.pageBit i = true := fun i hi =>
    (hbits i).mpr (.inl (h.held i hi))
  refine ⟨hcount, hnil.1, hnil.2, fun p hp => ?_, hheld⟩
  have hold : IsTable tmpPaddr kpml4 w.vm p ∨ p ∈ drawn := by
    rcases hp with rfl | ⟨n, hn, hat⟩
    · exact .inl (.inl rfl)
    · exact hback n hn p hat
  rcases hold with hold | hdrawn
  · obtain ⟨hlt, hset, hfree⟩ := h.tables p hold
    exact ⟨hlt, (hbits _).mpr (.inl hset), hfree⟩
  · obtain ⟨-, hlt, hclear⟩ := hpages p hdrawn
    refine ⟨hlt, (hbits _).mpr (.inr ⟨p, hdrawn, rfl⟩), fun hmem => ?_⟩
    rw [h.held _ hmem] at hclear
    cases hclear

/-- **One event.** -/
theorem Owned.step (hdepth : Pm.bitmapSize < depth) {e : MmEvent} (h : Owned tmpPaddr kpml4 w)
    (hguard : MmGuard env depth tmpPaddr layoutVaddrEnd kpml4 w e)
    (hok : mmStep env depth tmpPaddr layoutVaddrEnd kpml4 w e = .ok w') :
    Owned tmpPaddr kpml4 w' := by
  obtain ⟨hclients, hout, hleaves⟩ := hguard
  replace hleaves := hleaves w' hok
  cases e with
  | pm e => exact h.client hdepth hclients hok
  | vm c =>
    have hout' : ∀ frames s',
        mmStep env depth tmpPaddr layoutVaddrEnd kpml4 w (.vm c) = .ok s' → ∀ rest,
        call kpml4 (c.run (kernel tmpPaddr) (.table kpml4)) { w.vm with frames } =
          .ok ((), { s'.vm with frames := rest }) →
        StaysOut tmpPaddr kpml4 { w.vm with frames } c := by
      intro frames s' hs' rest hcall
      cases c with
      | flagPages vaddr pages flags => exact hout
      | _ =>
        intro t ht
        rw [hcall] at ht
        cases ht
        exact hout s' hs'
    have hstep := hok
    rw [mmStep] at hok
    cases hrun : callTogether kpml4 (c.run (together env depth tmpPaddr) (.table kpml4))
        w.toMmState with
    | error f =>
      rw [hrun] at hok
      cases hok
    | ok r =>
      rw [hrun] at hok
      cases hok
      apply h.lend hdepth (carries_lends.run (.table kpml4) c).call hrun hleaves
      intro frames rest hordered _ hcall
      exact ordered_of_call (s := { w.vm with frames }) h.window hordered hclients hcall
        (hout' frames _ hstep rest hcall)
  | mmMap fuel hint size flags =>
    have hclear : tmpPaddr ∉ w'.vm.opened := hout w' hok
    rw [mmStep] at hok
    cases hrun : callTogether kpml4 (mmMap (together env depth tmpPaddr) fuel layoutVaddrEnd
        (.table kpml4) hint size flags) w.toMmState with
    | error f =>
      rw [hrun] at hok
      cases hok
    | ok r =>
      rw [hrun] at hok
      cases hok
      apply h.lend hdepth (carries_lends.mmMapInTable ..).call (mmMap_ok hrun) hleaves
      intro frames rest hordered _ hcall
      exact ordered_of_mmMapInTable (s := { w.vm with frames }) h.window hordered hcall hclear

/-- What the allocator hands out next is no page of a table, and not held by a client. -/
theorem Owned.next (hdepth : Pm.bitmapSize < depth) (h : Owned tmpPaddr kpml4 w)
    {drawn : List PAddr} {p' : Pm.PmState} (hdraws : Draws env depth w.pm drawn p')
    (hleft : 0 < p'.freePages) :
    Ordered tmpPaddr w.vm.tmpPt kpml4 w.vm.mem drawn ∧
      ∀ f ∈ drawn, f ≠ tmpPaddr ∧ framePage f ∉ w.held := by
  obtain ⟨-, hpages, hnodup, -⟩ := hdraws.drawn hdepth h.count hleft
  have hclear : ∀ f ∈ drawn, ¬ w.pm.pageBit (framePage f) = true := fun f hf => by
    rw [(hpages f hf).2.2]
    exact Bool.false_ne_true
  refine ⟨⟨h.ordered.oneLevel, fun f hf => (hpages f hf).1, fun f hf n hn hat => ?_, hnodup⟩,
    fun f hf => ⟨?_, fun hmem => hclear f hf (h.held _ hmem)⟩⟩
  · exact hclear f hf (h.tables f (.inr ⟨n, hn, hat⟩)).2.1
  · rintro rfl
    exact hclear f hf (h.tables f (.inl rfl)).2.1

/-- The managers after `pm_init` and `vm_init`, when the pages of the kernel's tables are locked. -/
structure Booted (env : Pm.PmEnv) (depth : ℕ) (tmpPaddr kpml4 : PAddr) (w : MmWorld) : Prop where
  pm : ∃ memMap, Pm.pmInit env depth memMap = .ok w.pm
  vm : ∃ s, w.vm = vmInit tmpPaddr kpml4 s
  free : 0 < w.pm.freePages
  ordered : Ordered tmpPaddr w.vm.tmpPt kpml4 w.vm.mem []
  tables : ∀ p, IsTable tmpPaddr kpml4 w.vm p →
    framePage p < Pm.bitmapSize ∧ w.pm.pageBit (framePage p) = true
  held : w.held = ∅

theorem Booted.owned (hdepth : Pm.bitmapSize < depth) (h : Booted env depth tmpPaddr kpml4 w) :
    Owned tmpPaddr kpml4 w := by
  obtain ⟨⟨memMap, hinit⟩, ⟨s, hvm⟩, hfree, hordered, htables, hheld⟩ := h
  refine ⟨(Pm.pmInit_count hdepth hinit hfree).inCount, ?_, hordered, fun p hp => ?_,
    fun i hi => ?_⟩
  · rw [hvm]
    exact (window_vmInit s kpml4).1
  · rw [hheld]
    exact ⟨(htables p hp).1, (htables p hp).2, Finset.notMem_empty _⟩
  · rw [hheld] at hi
    exact absurd hi (Finset.notMem_empty i)

/-- Runs keep the managers in order. -/
theorem Owned.run (hdepth : Pm.bitmapSize < depth) (h : Owned tmpPaddr kpml4 w) {es : List MmEvent}
    (hrun : GuardedRun.Run (mmStep env depth tmpPaddr layoutVaddrEnd kpml4)
      (MmGuard env depth tmpPaddr layoutVaddrEnd kpml4) w es w') : Owned tmpPaddr kpml4 w' :=
  hrun.invariant (fun _ _ _ h hguard hok => h.step hdepth hguard hok) h

/-- **Page tables are not handed out.**  In every run that starts with `pm_init` and `vm_init`, with
the pages of the kernel's tables locked, in which clients of the allocator release what they
hold, no call comes to `tmp_pt` and a page is left, the pages of all tables stay locked and no
client holds one; and the pages that the allocator hands out next, however many, are in
order as frames for new tables, and nobody's. -/
theorem tables_owned_of_run (hdepth : Pm.bitmapSize < depth)
    (hboot : Booted env depth tmpPaddr kpml4 w) {es : List MmEvent}
    (hrun : GuardedRun.Run (mmStep env depth tmpPaddr layoutVaddrEnd kpml4)
      (MmGuard env depth tmpPaddr layoutVaddrEnd kpml4) w es w') :
    (∀ p, IsTable tmpPaddr kpml4 w'.vm p →
      w'.pm.pageBit (framePage p) = true ∧ framePage p ∉ w'.held) ∧
    ∀ drawn p', Draws env depth w'.pm drawn p' → 0 < p'.freePages →
      Ordered tmpPaddr w'.vm.tmpPt kpml4 w'.vm.mem drawn ∧
        ∀ f ∈ drawn, f ≠ tmpPaddr ∧ framePage f ∉ w'.held := by
  have hend := (hboot.owned hdepth).run hdepth hrun
  exact ⟨fun p hp => (hend.tables p hp).2, fun drawn p' hdraws hleft =>
    hend.next hdepth hdraws hleft⟩

/-! ## A small machine -/

/-- A kernel that fills the first twelve pages, the tables among them. -/
def tablesEnv : Pm.PmEnv := { Pm.flatEnv with layoutPaddrEnd := 0xc000 }

/-- The managers of this machine, started. -/
def startWorld (pm : Pm.PmState) : MmWorld :=
  { pm, vm := vmInit 0x8000#64 0x1000#64 (sparseState heapEntries []), held := ∅ }

/-- It is started in order. -/
theorem booted_start {pm : Pm.PmState} (hinit : Pm.pmInit tablesEnv 40000 Pm.flatMap = .ok pm)
    (hlow : ∀ i ∈ List.range 12, pm.pageBit i = true) (hclear : pm.pageBit 100 = false) :
    Booted tablesEnv 40000 0x8000#64 0x1000#64 (startWorld pm) := by
  have hordered : Ordered 0x8000#64 (startWorld pm).vm.tmpPt 0x1000#64 (startWorld pm).vm.mem [] :=
    ordered_heap
  have hfree : 0 < pm.freePages :=
    Finset.card_pos.mpr ⟨100, Pm.PmState.mem_freeSet.mpr ⟨by decide, hclear⟩⟩
  refine ⟨⟨_, hinit⟩, ⟨sparseState heapEntries [], rfl⟩, hfree, hordered, fun p hp => ?_, rfl⟩
  -- the tables are the ones of the list, and lie in the first twelve pages
  have hpages : ∀ x ∈ levelled ((0x8000#64, 511, setPte 0x8000#64 vmFlagWritable) ::
      heapEntries) 0x1000#64, framePage x.2 ∈ List.range 12 := by
    decide +kernel
  have hmem : framePage p ∈ List.range 12 := by
    rcases hp with rfl | ⟨n, hn, hat⟩
    · decide
    · rw [startWorld, vmInit_heap, TableAt] at hat
      have hview := @view_sparse heapEntries [] (by decide +kernel)
      replace hat := hview ▸ hat
      exact hpages (n, p) (mem_levelled hn (mem_reach_self hat))
  have hlt := List.mem_range.mp hmem
  exact ⟨by rw [Pm.bitmapSize_eq]; omega, hlow _ hmem⟩

/-- Pages for a heap, and a request. -/
theorem tables_owned_of_run_heap : ∃ pm w, Pm.pmInit tablesEnv 40000 Pm.flatMap = .ok pm ∧
    GuardedRun.Run (mmStep tablesEnv 40000 0x8000#64 0xffffffff80100000 0x1000#64)
      (MmGuard tablesEnv 40000 0x8000#64 0xffffffff80100000 0x1000#64) (startWorld pm)
      [.mmMap 2 0xffff800000000000 0x2000 vmFlagWritable, .pm .requestPage] w ∧
    ∀ p, IsTable 0x8000#64 0x1000#64 w.vm p →
      w.pm.pageBit (framePage p) = true ∧ framePage p ∉ w.held := by
  have htest : ((Pm.pmInit tablesEnv 40000 Pm.flatMap).toOption.any fun pm =>
      ((List.range 12).all fun i => pm.pageBit i) && !pm.pageBit 100 &&
      (mmStep tablesEnv 40000 0x8000#64 0xffffffff80100000 0x1000#64
        { pm, vm := sparseState heapEntries [], held := ∅ }
        (.mmMap 2 0xffff800000000000 0x2000 vmFlagWritable)).toOption.any fun w₁ =>
          !w₁.pm.pageBit 100 && !w₁.pm.pageBit 101 && decide (0x8000#64 ∉ w₁.vm.opened) &&
          (mmStep tablesEnv 40000 0x8000#64 0xffffffff80100000 0x1000#64 w₁
            (.pm .requestPage)).toOption.any fun w => !w.pm.pageBit 100) = true := by
    decide +kernel
  obtain ⟨pm, hinit, htest⟩ := Except.exists_of_any htest
  rw [Bool.and_eq_true, Bool.and_eq_true, List.all_eq_true] at htest
  obtain ⟨⟨hlow, hclear⟩, htest⟩ := htest
  rw [← vmInit_heap] at htest
  obtain ⟨w₁, hmap, htest⟩ := Except.exists_of_any htest
  simp only [Bool.and_eq_true, Bool.not_eq_true'] at htest
  obtain ⟨⟨⟨h100, h101⟩, hopened⟩, htest⟩ := htest
  obtain ⟨w, hreq, hleft⟩ := Except.exists_of_any htest
  have hfree : ∀ {p : Pm.PmState}, p.pageBit 100 = false → 0 < p.freePages := fun h =>
    Finset.card_pos.mpr ⟨100, Pm.PmState.mem_freeSet.mpr ⟨by decide, h⟩⟩
  have hrun : GuardedRun.Run (mmStep tablesEnv 40000 0x8000#64 0xffffffff80100000 0x1000#64)
      (MmGuard tablesEnv 40000 0x8000#64 0xffffffff80100000 0x1000#64) (startWorld pm)
      [.mmMap 2 0xffff800000000000 0x2000 vmFlagWritable, .pm .requestPage] w := by
    refine .cons ⟨trivial, fun w' hw' => ?_, fun w' hw' => ?_⟩ hmap
      (.cons ⟨⟨?_, fun a ha => absurd ha List.not_mem_nil⟩, trivial, fun w' hw' => ?_⟩ hreq
        (.nil w))
    · cases hmap.symm.trans hw'
      exact of_decide_eq_true hopened
    · cases hmap.symm.trans hw'
      exact hfree h100
    · exact Pm.one_lt_freePages (by decide) (by decide) (by decide) h100 h101
    · cases hreq.symm.trans hw'
      exact hfree (by simpa using hleft)
  exact ⟨pm, w, hinit, hrun,
    (tables_owned_of_run (by decide) (booted_start hinit hlow (by simpa using hclear)) hrun).1⟩

end Mimik.Vm
