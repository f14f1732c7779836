/-
# When mapping is exact

`vm_map_pages` finds a range with one recursion and fills it with another.  For a range
that is free at the hint (`Free`) the first leaves the indices of the hint, and the second
visits the paths of the pages of the range, in order.  Then the range is mapped exactly
if and only if it stays in one half of the address space and its frames within the
addresses that an entry can hold, and no page of the range has the place of another page
(`map_exact_iff`).

What goes wrong elsewhere is shown on an empty table: two pages from the last page of a
leaf table are found, but the second is mapped 512 pages further on
(`not_map_exact_carry`).
-/
import Mimik.VmFindSpace
import Mimik.VmMapEffect
import Mathlib.Tactic.Ring

namespace Mimik.Vm

open FaultState

/-! ## From the processor's tables to the machine without a window -/

section Views

variable {tmpPaddr root p : PAddr} {tmpPt : ℕ → Pte} {mem : Tables} {frames : List PAddr}
  {tlb : Tlb} {n : ℕ}

/-- Tables that do not come to `tmp_pt` are the same with the window and without it. -/
theorem at_view (h : ∀ n ≤ 3, ¬ TableOf root mem n tmpPaddr) (hn : n ≤ 3) :
    TableAt tmpPaddr tmpPt root mem n p ↔ TableOf root mem n p := by
  apply Radix.at_congr (d := 3) _ hn
  intro m hm q hq i _
  rw [view_of_ne]
  · exact ⟨rfl, rfl⟩
  · rintro rfl
    exact h m (by omega) hq

theorem at_of_clear (h : ¬ LeadsToWindow tmpPaddr tmpPt mem root) (hn : n ≤ 3) :
    TableOf root mem n p ↔ TableAt tmpPaddr tmpPt root mem n p := by
  apply Radix.at_congr (d := 3) _ hn
  intro m hm q hq i _
  rw [view_of_ne]
  · exact ⟨rfl, rfl⟩
  · rintro rfl
    exact h ⟨m, by omega, hq⟩

/-- Tables in order that do not lead into the window are sound. -/
theorem Ordered.sound (h : Ordered tmpPaddr tmpPt root mem frames)
    (hclear : ¬ LeadsToWindow tmpPaddr tmpPt mem root) (htmp : tmpPaddr ∉ frames) :
    Sound tmpPaddr root { mem, frames, tlb } where
  oneLevel q n hn m hm hqn hqm := by
    have hqn' := (at_of_clear hclear hn).mp hqn
    refine h.oneLevel q ?_ n hn m hm hqn' ((at_of_clear hclear hm).mp hqm)
    rintro rfl
    exact hclear ⟨n, hn, hqn'⟩
  avoids n hn htable := hclear ⟨n, hn, (at_of_clear hclear hn).mp htable⟩
  aligned := h.aligned
  noTmp := htmp
  noTable f hf n hn hat := h.noTable f hf n hn ((at_of_clear hclear hn).mp hat)
  nodup := h.nodup

theorem Sound.clear {t : FlatState} (h : Sound tmpPaddr root t) :
    ¬ LeadsToWindow tmpPaddr tmpPt t.mem root := by
  rintro ⟨n, hn, hat⟩
  exact h.avoids n hn ((at_view h.avoids hn).mp hat)

/-- Sound tables are in order. -/
theorem Sound.ordered {t : FlatState} (h : Sound tmpPaddr root t) :
    Ordered tmpPaddr tmpPt root t.mem t.frames where
  oneLevel q _ n hn m hm hqn hqm :=
    h.oneLevel q n hn m hm ((at_view h.avoids hn).mp hqn) ((at_view h.avoids hm).mp hqm)
  aligned := h.aligned
  noTable f hf n hn hat := h.noTable f hf n hn ((at_view h.avoids hn).mp hat)
  nodup := h.nodup

end Views

/-! ## The call -/

section Call

variable {tmpPaddr root paddrStart : PAddr} {s s' : VmState} {fuel pages vaddrHint v : ℕ}
  {flags : Flags} {t : FlatState}

/-- The place of an address: how far its walk comes. -/
def VmState.place (s : VmState) (tmpPaddr root : PAddr) (vaddr : ℕ) : PAddr × List ℕ :=
  pageTables.place (s.tables tmpPaddr) root (indices vaddr)

/-- The permissions that flags ask for. -/
def askedPerms (flags : Flags) : Perms where
  writable := isFlagSet flags vmFlagWritable
  user := isFlagSet flags vmFlagUser
  noExecute := isFlagUnset flags vmFlagExecutable

/-- What exact mapping means: each page of the range translates to its frame with the
permissions asked for, and no page outside the range becomes mapped. -/
def MapsExactly (tmpPaddr root : PAddr) (s s' : VmState) (v : ℕ) (paddrStart : PAddr)
    (pages : ℕ) (flags : Flags) : Prop :=
  (∀ k < pages, IsPage (v + k * pageSize) ∧
    (∃ e, s'.leaf tmpPaddr root (v + k * pageSize) = some e ∧
      (ptePaddr e).toNat = paddrStart.toNat + k * pageSize) ∧
    s'.perms tmpPaddr root (v + k * pageSize) = some (askedPerms flags)) ∧
  ∀ u, IsPage u → (∀ k < pages, u ≠ v + k * pageSize) → s.leaf tmpPaddr root u = none →
    s'.leaf tmpPaddr root u = none

/-- No page has the place of a page of the range but this one itself. -/
def Unaliased (tmpPaddr root : PAddr) (s : VmState) (v pages : ℕ) : Prop :=
  ∀ u, IsPage u → ∀ k < pages,
    s.place tmpPaddr root u = s.place tmpPaddr root (v + k * pageSize) → u = v + k * pageSize

/-- Without a window, the range that the search has found at the hint is filled, or there are
not enough frames. -/
theorem vmMapPages_found (h : Sound tmpPaddr root t) (hpaddr : paddrStart.toNat % pageSize = 0)
    (hhint : vaddrHint % pageSize = 0) (hpages : 0 < pages) {found : ℕ}
    (hfind : findSpace (flat tmpPaddr) fuel paddrStart pages flags 3 (indices vaddrHint) root t =
      .ok (((found : ℤ), indices vaddrHint), t)) :
    (∃ r, visitAll flags root (Radix.box 512 (indices vaddrHint)) paddrStart pages t = some r ∧
      vmMapPages (flat tmpPaddr) fuel root paddrStart pages vaddrHint flags t =
        .ok ((success, hintOf vaddrHint (indices vaddrHint)), r.2.2)) ∨
    visitAll flags root (Radix.box 512 (indices vaddrHint)) paddrStart pages t = none ∧
      vmMapPages (flat tmpPaddr) fuel root paddrStart pages vaddrHint flags t = .error swapped := by
  have hran := recurseMap_eq flags 3 le_rfl (indices vaddrHint) rfl (fun _ hi => indices_lt hi)
    root paddrStart pages t h .root
  rw [vmMapPages, check, if_pos (decide_eq_true hpaddr), check,
    if_pos (decide_eq_true hhint), check,
    if_pos (decide_eq_true hpages), pure_bind, pure_bind, pure_bind, bind_eq_of_ok hfind]
  show (∃ r, _ ∧ (if isError (found : ℤ) = true then _ else _ : Prog Fault FlatState _) t = _) ∨
    _ ∧ (if isError (found : ℤ) = true then _ else _ : Prog Fault FlatState _) t = _
  rw [isError_natCast, if_neg Bool.false_ne_true]
  cases hv : visitAll flags root (Radix.box 512 (indices vaddrHint)) paddrStart pages t with
  | none =>
    rw [hv] at hran
    exact .inr ⟨rfl, bind_eq_error hran _⟩
  | some r =>
    rw [hv] at hran
    obtain ⟨i, hran⟩ := hran
    refine .inl ⟨r, rfl, ?_⟩
    rw [bind_eq_of_ok hran]
    rfl

/-- A range that is free is found at the hint. -/
theorem vmMapPages_free (h : Sound tmpPaddr root t) (hpaddr : paddrStart.toNat % pageSize = 0)
    (hhint : vaddrHint % pageSize = 0) (hpages : 0 < pages)
    (hfree : Free t.mem pages (indices vaddrHint) root) :
    (∃ r, visitAll flags root (Radix.box 512 (indices vaddrHint)) paddrStart pages t = some r ∧
      vmMapPages (flat tmpPaddr) (fuel + 1) root paddrStart pages vaddrHint flags t =
        .ok ((success, hintOf vaddrHint (indices vaddrHint)), r.2.2)) ∨
    visitAll flags root (Radix.box 512 (indices vaddrHint)) paddrStart pages t = none ∧
      vmMapPages (flat tmpPaddr) (fuel + 1) root paddrStart pages vaddrHint flags t =
        .error swapped := by
  obtain ⟨found, -, hfind⟩ : ∃ found : ℕ, pages ≤ found ∧
      findSpace (flat tmpPaddr) (fuel + 1) paddrStart pages flags 3 (indices vaddrHint) root t =
        .ok (((found : ℤ), indices vaddrHint), t) :=
    findSpace_free h hpages fuel 3 rfl (fun _ hi => indices_lt hi) .root rfl hfree
  exact vmMapPages_found h hpaddr hhint hpages hfind

/-! ### The pages of a free range -/

/-- Four indices and the offset of a page, put together. -/
theorem shiftLeft_indices (a b c d : ℕ) :
    a <<< 39 + b <<< 30 + c <<< 21 + d <<< 12 =
      (((a * 512 + b) * 512 + c) * 512 + d) * 4096 := by
  simp only [Nat.shiftLeft_eq]
  ring

/-- The hint is made of its indices. -/
theorem hintOf_indices {vaddr : ℕ} (h : IsPage vaddr) : hintOf vaddr (indices vaddr) = vaddr := by
  obtain ⟨hlt, hcan, hal⟩ := h
  rw [canonical_iff hlt] at hcan
  rw [pageSize] at hal
  have hbit : (vaddr >>> 39 % 512).testBit 8 = decide (2 ^ 47 ≤ vaddr % 2 ^ 48) := by
    rw [Nat.testBit_eq_decide_div_mod_eq, Nat.shiftRight_eq_div_pow, decide_eq_decide]
    omega
  -- the indices make up the page number
  have hlin : ((vaddr >>> 39 % 512 * 512 + vaddr >>> 30 % 512) * 512 + vaddr >>> 21 % 512) * 512 +
      vaddr >>> 12 % 512 = vaddr / 4096 % 68719476736 := by
    simp only [Nat.shiftRight_eq_div_pow]
    omega
  have hhigh : vaddr >>> 48 = vaddr / 281474976710656 := Nat.shiftRight_eq_div_pow _ _
  show (if (vaddr >>> 39 % 512).testBit 8 = true then 0xffff else vaddr >>> 48 % 2 ^ 16) <<< 48 +
    (vaddr >>> 39 % 512 % 512) <<< 39 + (vaddr >>> 30 % 512 % 512) <<< 30 +
    (vaddr >>> 21 % 512 % 512) <<< 21 + (vaddr >>> 12 % 512 % 512) <<< 12 + vaddr % 4096 = vaddr
  rw [hal, Nat.add_zero, Nat.add_assoc, Nat.add_assoc, Nat.add_assoc, ← Nat.add_assoc (_ <<< 30),
    ← Nat.add_assoc (_ <<< 39), ← Nat.add_assoc (_ <<< 39), shiftLeft_indices]
  simp only [Nat.mod_mod]
  rw [hlin, hbit, hhigh]
  clear hbit hlin hhigh
  rcases hcan with hcan | hcan
  · have hnot : ¬ 2 ^ 47 ≤ vaddr % 2 ^ 48 := by omega
    have hzero : vaddr / 281474976710656 = 0 := by omega
    rw [decide_eq_false hnot, if_neg Bool.false_ne_true, hzero, Nat.zero_mod, Nat.zero_shiftLeft]
    omega
  · have hset : 2 ^ 47 ≤ vaddr % 2 ^ 48 := by omega
    have hones : 0xffff <<< 48 = 18446462598732840960 := rfl
    rw [decide_eq_true hset, if_pos rfl, hones]
    omega
/-- The pages of a free range are not mapped. -/
theorem Free.leaf_none {mem : Tables} {height k : ℕ} {index : List ℕ} {p : PAddr}
    (h : Free mem pages index p) (hlen : index.length = height + 1) (hidx : ∀ i ∈ index, i < 512)
    (hk : k < pages) : pageTables.leaf mem p (digits height (lin index + k)) = none := by
  induction height generalizing index p with
  | zero =>
    obtain ⟨i, rfl⟩ := List.length_eq_one_iff.mp hlen
    have hlin : lin [i] = i := by simp [lin]
    show pageTables.entry mem (p, lin [i] + k) = none
    rw [hlin, Radix.entry, if_neg]
    show ¬ present (mem p (i + k)) = true
    rw [h.2 (i + k) (by omega) (by omega)]
    exact Bool.false_ne_true
  | succ height ih =>
    obtain ⟨i, index, rfl⟩ := List.exists_cons_of_length_eq_add_one hlen
    have hlen' : index.length = height + 1 := by simpa using hlen
    obtain ⟨j, path, rfl⟩ := List.exists_cons_of_length_eq_add_one hlen'
    have hpath : path.length = height := by simpa using hlen'
    have hidx' : ∀ l ∈ j :: path, l < 512 := fun l hl => hidx l (List.mem_cons_of_mem i hl)
    have hlin : lin (i :: j :: path) + k = i * 512 ^ (height + 1) + (lin (j :: path) + k) := by
      rw [lin, hlen', Nat.add_assoc]
    have horder := h.inOrder
    rw [hlin]
    rw [Free] at h
    split at h
    next hpres =>
      have hle := (take_box_of_inOrder hlen' hidx' h.inOrder).1
      have hne : digits height (lin (j :: path) + k) ≠ [] := by
        cases height <;> exact List.cons_ne_nil _ _
      rw [digits_add height (by omega), Radix.leaf_cons hne,
        if_pos (show pageTables.present _ = true from hpres)]
      exact ih h hlen' hidx'
    next =>
      obtain ⟨-, n, -, henough, habs⟩ := h
      rw [hpath] at henough
      -- the page lies below one of the entries that are not present
      have hm : lin (j :: path) + k < n * 512 ^ (height + 1) := by
        rcases horder with horder | ⟨hzero, -⟩
        · have hle := (take_box_of_inOrder hlen' hidx' horder).1
          have hn : 1 * 512 ^ (height + 1) ≤ n * 512 ^ (height + 1) := by
            apply Nat.mul_le_mul_right
            by_contra hn
            rw [show n = 0 by omega] at henough
            omega
          omega
        · omega
      rw [Radix.leaf, leafSlot_absentRun habs hm]
      rfl

/-- The places of addresses are the same without the window. -/
theorem place_view {tmpPt : ℕ → Pte} {mem : Tables} {path : List ℕ}
    (h : ∀ n ≤ 3, ¬ TableOf root mem n tmpPaddr) (hpath : IsPath path) :
    pageTables.place (view tmpPaddr tmpPt mem) root path = pageTables.place mem root path := by
  apply Radix.place_congr (d := 3) _ .root (by rw [hpath.1]) hpath.2
  intro m hm q hq i _
  rw [view_of_ne]
  · exact ⟨rfl, fun _ => rfl⟩
  · rintro rfl
    exact h m (by omega) hq

/-- The permissions of a page whose entries were all given them. -/
theorem perms_of_allSet {mem : Tables} {path : List ℕ} {paddr : PAddr}
    (hset : AllSet flags mem root path)
    (hleaf : pageTables.leaf mem root path = some (setPte paddr flags)) :
    walkPerms mem root path = some (askedPerms flags) := by
  obtain ⟨slot, hslot, -, hread⟩ := Radix.leaf_eq_some_iff.mp hleaf
  have hinner : ∀ x ∈ pageTables.slots mem root path.dropLast,
      writable (mem x.1 x.2) = isFlagSet flags vmFlagWritable ∧
        userAccessible (mem x.1 x.2) = isFlagSet flags vmFlagUser ∧
        noExecute (mem x.1 x.2) = false := by
    intro x hx
    rw [← (hset x hx).2, writable_reflag, userAccessible_reflag, noExecute_reflag]
    exact ⟨rfl, rfl, rfl⟩
  have hall : ∀ (c : Bool) (f : PAddr × ℕ → Bool),
      (∀ x ∈ pageTables.slots mem root path.dropLast, f x = c) → f slot = c →
      (pageTables.slots mem root path).all f = c := by
    intro c f hf hslotc
    rw [Radix.slots_eq_append hslot, List.all_append, List.all_cons, List.all_nil, hslotc,
      Bool.and_true]
    cases c with
    | false => exact Bool.and_false _
    | true => rw [Bool.and_true, List.all_eq_true]; exact hf
  rw [walkPerms, hleaf, Option.map_some, Option.some.injEq, askedPerms, Perms.mk.injEq]
  refine ⟨hall _ _ (fun x hx => (hinner x hx).1) ?_,
    hall _ _ (fun x hx => (hinner x hx).2.1) ?_, ?_⟩
  · rw [hread, writable_setPte]
  · rw [hread, userAccessible_setPte]
  · have hnone : (pageTables.slots mem root path.dropLast).any
        (fun x => noExecute (mem x.1 x.2)) = false := by
      rw [List.any_eq_false]
      intro x hx
      rw [(hinner x hx).2.2]
      exact Bool.false_ne_true
    rw [Radix.slots_eq_append hslot, List.any_append, hnone, Bool.false_or, List.any_cons,
      List.any_nil, Bool.or_false, hread, noExecute_setPte]

/-- The address of the page `k` pages on. -/
theorem toNat_ptePaddr_pageEntry {k : ℕ} (hal : paddrStart.toNat % pageSize = 0)
    (hlt : paddrStart.toNat + (k + 1) * pageSize ≤ 2 ^ 52) :
    (ptePaddr (pageEntry flags paddrStart k)).toNat = paddrStart.toNat + k * pageSize := by
  rw [pageSize] at hal hlt
  have hsum : (paddrStart + BitVec.ofNat 64 (k * pageSize)).toNat =
      paddrStart.toNat + k * pageSize := by
    rw [BitVec.toNat_add, BitVec.toNat_ofNat, pageSize]
    omega
  rw [pageEntry, ptePaddr_setPte, ptePaddr_of_page _ _, hsum]
  · rw [hsum, pageSize]
    omega
  · rw [hsum, pageSize]
    omega

/-- What a call leaves that was given a range that is free. -/
structure FreeCall (tmpPaddr root paddrStart : PAddr) (flags : Flags) (vaddrHint pages : ℕ)
    (s s' : VmState) (v : ℕ) : Prop where
  hint : v = vaddrHint
  clear : ¬ LeadsToWindow tmpPaddr s'.tmpPt s'.mem root
  avoids : ∀ n ≤ 3, ¬ TableOf root s.mem n tmpPaddr
  avoids' : ∀ n ≤ 3, ¬ TableOf root s'.mem n tmpPaddr
  effect : MapEffect flags root paddrStart (Radix.box 512 (indices vaddrHint)) 0 pages s.mem s'.mem
  tmpPt_eq : s'.tmpPt = s.tmpPt
  first_eq : s'.firstFreeTmpIndex = s.firstFreeTmpIndex
  sound : Sound tmpPaddr root s'.flat
  frames : s'.frames <:+ s.frames

/-- The paths of a box are paths. -/
theorem isPath_of_mem_box {vaddr : ℕ} :
    ∀ path ∈ Radix.box 512 (indices vaddr), IsPath path := fun _ hpath => Radix.of_mem_box hpath

theorem freeCall_of_call (hwin : WindowOk s.tmpPt s.firstFreeTmpIndex)
    (hclear : ¬ LeadsToWindow tmpPaddr s.tmpPt s.mem root)
    (hordered : Ordered tmpPaddr s.tmpPt root s.mem s.frames) (htmp : tmpPaddr ∉ s.frames)
    (hpage : IsPage vaddrHint) (hfree : Free s.mem pages (indices vaddrHint) root)
    {res : Status} (hok : call root (vmMapPages (kernel tmpPaddr) fuel (.table root)
      paddrStart pages
      vaddrHint flags) s = .ok ((res, v), s')) :
    res = success ∧ (paddrStart.toNat % pageSize = 0 ∧ 0 < pages) ∧
      FreeCall tmpPaddr root paddrStart flags vaddrHint pages s s' v := by
  have hsound : Sound tmpPaddr root s.flat := hordered.sound hclear htmp
  have hroot : root ≠ tmpPaddr := by
    rintro rfl
    exact hsound.avoids 0 (by omega) .root
  have hchecks : paddrStart.toNat % pageSize = 0 ∧ 0 < pages := by
    obtain ⟨_, s₁, hcheck, hrest⟩ := bind_eq_ok_iff.mp hok
    obtain ⟨_, s₂, -, hrest⟩ := bind_eq_ok_iff.mp hrest
    obtain ⟨_, s₃, hcheck', -⟩ := bind_eq_ok_iff.mp hrest
    exact ⟨of_decide_eq_true (check_eq_ok_iff.mp hcheck).1,
      of_decide_eq_true (check_eq_ok_iff.mp hcheck').1⟩
  obtain ⟨fuel, rfl⟩ : ∃ n, fuel = n + 1 := by
    cases fuel with
    | succ n => exact ⟨n, rfl⟩
    | zero =>
      -- without fuel the search does not begin
      obtain ⟨_, s₁, -, hrest⟩ := bind_eq_ok_iff.mp hok
      obtain ⟨_, s₂, -, hrest⟩ := bind_eq_ok_iff.mp hrest
      obtain ⟨_, s₃, -, hrest⟩ := bind_eq_ok_iff.mp hrest
      obtain ⟨_, s₄, hfind, -⟩ := bind_eq_ok_iff.mp hrest
      cases hfind
  rcases vmMapPages_free hsound hchecks.1 hpage.2.2 hchecks.2 hfree with
    ⟨r, hv, hflat⟩ | ⟨-, hfault⟩
  · obtain ⟨heq, hleaves⟩ := call_of_flat (fun _ _ hlevel _ _ hpt => sim_vmMapPages hlevel hpt ..)
      hwin hroot hflat hok
    rw [Prod.mk.injEq] at heq
    have hvis := hsound.visitAll .root (by omega) (fun path hpath => by
      obtain ⟨hlen, hwidth⟩ := isPath_of_mem_box path hpath
      exact ⟨by rw [hlen], hwidth⟩) hv
    have hpaddr : paddrStart = paddrStart + BitVec.ofNat 64 (0 * pageSize) := by simp
    rw [hpaddr] at hv
    have heff := hsound.visitAll_effect isPath_of_mem_box hv
    have hsound' : Sound tmpPaddr root s'.flat := by
      refine hvis.sound.congr hleaves.frames_eq fun n _ q => ?_
      show TableOf root s'.mem n q ↔ _
      rw [hleaves.mem_eq]
    refine ⟨heq.1, hchecks, ⟨?_, hsound'.clear, hsound.avoids, hsound'.avoids, ?_,
      hleaves.tmpPt_eq, hleaves.first_eq, hsound', ?_⟩⟩
    · rw [heq.2, hintOf_indices hpage]
    · rw [hleaves.mem_eq]
      exact heff
    · rw [hleaves.frames_eq]
      exact hvis.frames
  · obtain ⟨t, hflat, -⟩ := call_of_not_strayed
      (fun _ _ hlevel _ _ hpt => sim_vmMapPages hlevel hpt ..) hwin hroot
      (by rw [hfault]; intro h; cases h) hok
    rw [hfault] at hflat
    cases hflat

/-- The walks of addresses, without the window. -/
theorem FreeCall.leaf_eq (h : FreeCall tmpPaddr root paddrStart flags vaddrHint pages s s' v)
    (hclear : ¬ LeadsToWindow tmpPaddr s.tmpPt s.mem root) (u : ℕ) :
    s.leaf tmpPaddr root u = pageTables.leaf s.mem root (indices u) ∧
      s'.leaf tmpPaddr root u = pageTables.leaf s'.mem root (indices u) :=
  ⟨(walk_view hclear u).2.2, (walk_view h.clear u).2.2⟩

theorem FreeCall.place_eq (h : FreeCall tmpPaddr root paddrStart flags vaddrHint pages s s' v)
    (u : ℕ) : s.place tmpPaddr root u = pageTables.place s.mem root (indices u) :=
  place_view h.avoids ⟨rfl, fun _ hi => indices_lt hi⟩

/-- The pages of the range have the paths that come first in the box. -/
theorem FreeCall.range (hpage : IsPage vaddrHint)
    (hfree : Free s.mem pages (indices vaddrHint) root) (hhalf : InHalf vaddrHint pages) :
    (Radix.box 512 (indices vaddrHint)).take pages =
        (List.range pages).map (fun k => indices (vaddrHint + k * pageSize)) ∧
      ∀ k < pages, pageTables.leaf s.mem root (indices (vaddrHint + k * pageSize)) = none := by
  refine ⟨take_box_indices hpage hhalf hfree.inOrder, fun k hk => ?_⟩
  rw [indices_eq_digits, (hhalf.page hpage.2.2 hk).2, ← lin_indices]
  exact hfree.leaf_none rfl (fun _ hi => indices_lt hi) hk

/-- What the pages of the range are given, when no two of them have one place. -/
theorem FreeCall.given (h : FreeCall tmpPaddr root paddrStart flags vaddrHint pages s s' v)
    (hpage : IsPage vaddrHint) (hfree : Free s.mem pages (indices vaddrHint) root)
    (hhalf : InHalf vaddrHint pages) (halias : Unaliased tmpPaddr root s vaddrHint pages) :
    (∀ k < pages, pageTables.leaf s'.mem root (indices (vaddrHint + k * pageSize)) =
        some (pageEntry flags paddrStart k) ∧
      AllSet flags s'.mem root (indices (vaddrHint + k * pageSize))) ∧
    ∀ u, IsPage u → (∀ k < pages, u ≠ vaddrHint + k * pageSize) →
      pageTables.leaf s'.mem root (indices u) = pageTables.leaf s.mem root (indices u) := by
  obtain ⟨htake, hnone⟩ := FreeCall.range hpage hfree hhalf
  have hpages : ∀ k < pages, IsPage (vaddrHint + k * pageSize) := fun k hk =>
    (hhalf.page hpage.2.2 hk).1
  have hmem : ∀ path ∈ (Radix.box 512 (indices vaddrHint)).take pages,
      ∃ k < pages, path = indices (vaddrHint + k * pageSize) := by
    intro path hpath
    rw [htake] at hpath
    obtain ⟨k, hk, rfl⟩ := List.mem_map.mp hpath
    exact ⟨k, List.mem_range.mp hk, rfl⟩
  have hfreeAll : ∀ path ∈ (Radix.box 512 (indices vaddrHint)).take pages,
      pageTables.leaf s.mem root path = none := by
    intro path hpath
    obtain ⟨k, hk, rfl⟩ := hmem path hpath
    exact hnone k hk
  have hapart : ((Radix.box 512 (indices vaddrHint)).take pages).Pairwise
      fun u w => ¬ Together s.mem root w u := by
    rw [htake, List.pairwise_map]
    refine List.pairwise_lt_range.imp_of_mem ?_
    intro j k hj hk hlt htogether
    have hk := List.mem_range.mp hk
    have heq := halias _ (hpages k hk) j (List.mem_range.mp hj)
      (by rw [h.place_eq, h.place_eq]; exact htogether)
    rw [pageSize] at heq
    omega
  refine ⟨fun k hk => ?_, fun u hu hout => ?_⟩
  · have hget : (Radix.box 512 (indices vaddrHint))[k]? =
        some (indices (vaddrHint + k * pageSize)) := by
      have hgetTake := congrArg (fun l => l[k]?) htake
      simp only [List.getElem?_take, if_pos hk] at hgetTake
      rw [hgetTake, List.getElem?_map, List.getElem?_range hk]
      rfl
    constructor
    · rw [h.effect.leaf _ ⟨rfl, fun _ hi => indices_lt hi⟩,
        Handout.handout_fresh (together_equivalence s.mem root) hfreeAll hapart hk hget rfl,
        Nat.zero_add]
    · apply h.effect.allSet
      rw [visitedPaths, Handout.gone_fresh _ hapart, htake]
      · exact List.mem_map_of_mem (List.mem_range.mpr hk)
      · intro path hpath
        rw [mapped, hfreeAll path hpath]
        rfl
  · rw [h.effect.leaf _ ⟨rfl, fun _ hi => indices_lt hi⟩, Handout.handout_other _ hfreeAll hapart]
    intro path hpath htogether
    obtain ⟨k, hk, rfl⟩ := hmem path hpath
    exact hout k hk (halias u hu k hk (by rw [h.place_eq, h.place_eq]; exact htogether))

/-- **Exact mapping.**  For a range that is free at the hint, `vm_map_pages` maps exactly the
range if and only if the range stays in one half of the address space, its frames are
addresses that an entry can hold, and no page of the range has the place of another. -/
theorem map_exact_iff (hwin : WindowOk s.tmpPt s.firstFreeTmpIndex)
    (hclear : ¬ LeadsToWindow tmpPaddr s.tmpPt s.mem root)
    (hordered : Ordered tmpPaddr s.tmpPt root s.mem s.frames) (htmp : tmpPaddr ∉ s.frames)
    (hpage : IsPage vaddrHint) (hfree : Free s.mem pages (indices vaddrHint) root)
    (hok : call root (vmMapPages (kernel tmpPaddr) fuel (.table root) paddrStart pages vaddrHint
      flags) s = .ok ((success, v), s')) :
    MapsExactly tmpPaddr root s s' v paddrStart pages flags ↔
      InHalf vaddrHint pages ∧ paddrStart.toNat + pages * pageSize ≤ 2 ^ 52 ∧
        Unaliased tmpPaddr root s vaddrHint pages := by
  obtain ⟨-, ⟨hal, hpos⟩, h⟩ := freeCall_of_call hwin hclear hordered htmp hpage hfree hok
  obtain rfl := h.hint
  have hleaf := h.leaf_eq hclear
  constructor
  · rintro ⟨hrange, hother⟩
    have hhalf : InHalf v pages := by
      by_contra hnot
      simp only [InHalf, pageSize] at hnot
      have hlt := hpage.1
      have hcan := (canonical_iff hlt).mp hpage.2.1
      have hal' := hpage.2.2
      rw [pageSize] at hal'
      -- the first page past the end of the half
      obtain ⟨k, hk, hend⟩ : ∃ k < pages, v + k * 4096 = 2 ^ 47 ∨ v + k * 4096 = 2 ^ 64 := by
        rcases hcan with hlow | hhigh
        · exact ⟨(2 ^ 47 - v) / 4096, by omega, .inl (by omega)⟩
        · exact ⟨(2 ^ 64 - v) / 4096, by omega, .inr (by omega)⟩
      obtain ⟨⟨hlt', hcan', -⟩, -⟩ := hrange k hk
      rw [canonical_iff hlt', pageSize] at hcan'
      rw [pageSize] at hlt'
      omega
    have hbound : paddrStart.toNat + pages * pageSize ≤ 2 ^ 52 := by
      by_contra hnot
      rw [pageSize] at hnot hal
      obtain ⟨k, hk, hend⟩ : ∃ k < pages, 2 ^ 52 ≤ paddrStart.toNat + k * 4096 :=
        ⟨pages - 1, by omega, by omega⟩
      obtain ⟨-, ⟨e, -, he⟩, -⟩ := hrange k hk
      rw [toNat_ptePaddr, pageSize] at he
      omega
    refine ⟨hhalf, hbound, fun u hu k hk hplace => ?_⟩
    obtain ⟨hpages, ⟨e, he, heq⟩, -⟩ := hrange k hk
    -- what has one place has one leaf, before the call and after it
    rw [h.place_eq, h.place_eq] at hplace
    have hpath : ∀ w, PathFrom root s.mem root (indices w) := fun w =>
      pathFrom_root rfl fun _ hi => indices_lt hi
    have hplace' := (h.effect.extended.places _ _ _ _ (hpath u) (hpath _)).mpr hplace
    by_contra hne
    by_cases hin : ∃ j < pages, u = v + j * pageSize
    · obtain ⟨j, hj, rfl⟩ := hin
      obtain ⟨-, ⟨e', he', heq'⟩, -⟩ := hrange j hj
      rw [(hleaf _).2, Radix.leaf_eq_placed] at he he'
      rw [hplace', he] at he'
      cases he'
      rw [heq] at heq'
      rw [pageSize] at hne heq'
      omega
    · have hnone := hother u hu (fun j hj heq => hin ⟨j, hj, heq⟩) (by
        rw [(hleaf u).1, Radix.leaf_eq_placed, hplace, ← Radix.leaf_eq_placed]
        exact (FreeCall.range hpage hfree hhalf).2 k hk)
      rw [(hleaf _).2, Radix.leaf_eq_placed] at he hnone
      rw [hplace', he] at hnone
      cases hnone
  · rintro ⟨hhalf, hbound, halias⟩
    obtain ⟨hgiven, hother⟩ := h.given hpage hfree hhalf halias
    refine ⟨fun k hk => ⟨(hhalf.page hpage.2.2 hk).1, ⟨pageEntry flags paddrStart k, ?_, ?_⟩, ?_⟩,
      fun u hu hout hnone => ?_⟩
    · rw [(hleaf _).2]
      exact (hgiven k hk).1
    · apply toNat_ptePaddr_pageEntry hal
      exact le_trans (Nat.add_le_add_left (Nat.mul_le_mul_right _ hk) _) hbound
    · rw [VmState.perms, VmState.tables, perms_view h.clear]
      exact perms_of_allSet (hgiven k hk).2 (hgiven k hk).1
    · rw [(hleaf u).2, hother u hu hout, ← (hleaf u).1]
      exact hnone

end Call

/-- A range in the row's leaf table is free when its entries are absent. -/
theorem free_row {leaves : ℕ → Pte} {flags : Flags} {vaddr pages : ℕ} (hpos : 0 < pages)
    (hfit : vaddr / pageSize + pages ≤ 512)
    (habs : ∀ k < pages, present (leaves (vaddr / pageSize + k)) = false) :
    Free (rowTables leaves flags) pages (indices vaddr) 0x1000#64 := by
  have hindices : indices vaddr = [0, 0, 0, vaddr / pageSize] := by
    rw [pageSize] at *
    simp only [indices, Nat.shiftRight_eq_div_pow, List.cons.injEq, and_true]
    omega
  have hone : ∀ p, p = 0x1000#64 ∨ p = 0x2000#64 ∨ p = 0x3000#64 → ∀ j path,
      Free (rowTables leaves flags) pages (j :: path) (p + 0x1000#64) →
      Free (rowTables leaves flags) pages (0 :: j :: path) p := by
    intro p hp j path h
    have hpres : (present (rowTables leaves flags p 0) = true ↔ 0 = 0) ∧
        ptePaddr (rowTables leaves flags p 0) = p + 0x1000#64 := present_rowTables hp
    rw [Free, if_pos (hpres.1.mpr rfl), hpres.2]
    exact h
  rw [hindices]
  apply hone _ (.inl rfl)
  apply hone _ (.inr (.inl rfl))
  apply hone _ (.inr (.inr rfl))
  refine ⟨hfit, fun j hj hj' => ?_⟩
  obtain ⟨k, rfl⟩ := Nat.exists_eq_add_of_le hj
  exact habs k (by omega)

/-- The row's tables share no place. -/
theorem unaliased_row {leaves : ℕ → Pte} {flags : Flags} {frames : List PAddr} {vaddr pages : ℕ}
    (hal : vaddr % pageSize = 0) (hfit : vaddr / pageSize + pages ≤ 512) :
    Unaliased 0x8000#64 0x1000#64 (rowState leaves flags frames) vaddr pages := by
  intro u hu k hk hplace
  rw [pageSize] at *
  have hpage : IsPage (vaddr + k * pageSize) := by
    rw [pageSize]
    refine ⟨by omega, ?_, by rw [pageSize]; omega⟩
    rw [canonical_iff (by omega)]
    omega
  -- only the page itself has its place in the leaf table
  have hplaced : ∀ w i, pageTables.place (view 0x8000#64 (rowState leaves flags frames).tmpPt
      (rowTables leaves flags)) 0x1000#64 (indices w) = (0x4000#64, [i]) ↔
      pageTables.leafSlot (rowTables leaves flags) 0x1000#64 (indices w) = some (0x4000#64, i) :=
    fun w i => by
      rw [← Radix.leafSlot_eq_some_iff, (walk_view clear_rowTables w).2.1]
  have hself := (hplaced (vaddr + k * 4096) (vaddr / 4096 + k)).mpr (by
    rw [indices, leafSlot_rowTables]
    simp only [Nat.shiftRight_eq_div_pow]
    rw [if_pos (by omega), Option.some.injEq, Prod.mk.injEq]
    exact ⟨rfl, by omega⟩)
  have hslot := (hplaced u _).mp (hplace.trans hself)
  rw [indices, leafSlot_rowTables] at hslot
  split at hslot
  next hzero =>
    rw [Option.some.injEq, Prod.mk.injEq] at hslot
    refine hu.ext hpage ?_
    simp only [Nat.shiftRight_eq_div_pow] at hzero hslot
    simp only [pageNumber, pageSize]
    omega
  next => cases hslot

/-- The second page of a small address space is mapped exactly. -/
theorem map_exact_second :
    ∃ s', call 0x1000#64 (vmMapPages (kernel 0x8000#64) 2 (.table 0x1000#64) 0x6000#64 1 0x1000
        vmFlagWritable) (rowState (fun i => if i = 0 then 0x5003#64 else 0#64) vmFlagWritable []) =
        .ok ((success, 0x1000), s') ∧
      MapsExactly 0x8000#64 0x1000#64
        (rowState (fun i => if i = 0 then 0x5003#64 else 0#64) vmFlagWritable []) s' 0x1000
        0x6000#64 1 vmFlagWritable := by
  have hrun : (call 0x1000#64
      (vmMapPages (kernel 0x8000#64) 2 (.table 0x1000#64) 0x6000#64 1 0x1000 vmFlagWritable)
      (rowState (fun i => if i = 0 then 0x5003#64 else 0#64) vmFlagWritable [])).toOption.any
      (fun x => decide (x.1 = (success, 0x1000))) = true := by
    decide +kernel
  obtain ⟨⟨r, s'⟩, hok, htest⟩ := Except.exists_of_any hrun
  obtain rfl : r = (success, 0x1000) := of_decide_eq_true htest
  have hfree : Free (rowTables (fun i => if i = 0 then 0x5003#64 else 0#64) vmFlagWritable) 1
      (indices 0x1000) 0x1000#64 := by
    refine free_row (by decide) (by decide) fun k hk => ?_
    obtain rfl : k = 0 := by omega
    decide
  have hpage : IsPage 0x1000 := ⟨by decide, by decide, by decide⟩
  refine ⟨s', hok, ?_⟩
  rw [map_exact_iff window_rowState clear_rowTables (ordered_rowState _ _ List.nodup_nil)
    List.not_mem_nil hpage hfree hok]
  · exact ⟨.inl (by decide), by decide, unaliased_row (by decide) (by decide)⟩
  · intro f hf
    cases hf
  · intro f hf
    cases hf

/-- No tables but an empty one at the first page, and the frames that `pm_request_page` is
going to return. -/
def emptyState (frames : List PAddr) : VmState where
  mem := fun _ _ => 0#64
  tmpPt := fun i => if i = 511 then setPte 0x8000#64 vmFlagWritable else 0#64
  firstFreeTmpIndex := 0
  frames
  tlb := []
  opened := []

/-- An empty table does not lead into the window. -/
theorem clear_emptyState (frames : List PAddr) :
    ¬ LeadsToWindow 0x8000#64 (emptyState frames).tmpPt (emptyState frames).mem 0x1000#64 := by
  have hat : ∀ n p, pageTables.At (view 0x8000#64 (emptyState frames).tmpPt
      (emptyState frames).mem) 0x1000#64 n p → p = 0x1000#64 := by
    intro n p hp
    induction hp with
    | root => rfl
    | @step n p i _ _ hpres ih =>
      subst ih
      rw [view_of_ne (by decide)] at hpres
      replace hpres : pageTables.present 0#64 = true := hpres
      exact absurd (present_zero.symm.trans hpres) Bool.false_ne_true
  rintro ⟨n, -, htmp⟩
  exact absurd (hat n _ htmp) (by decide)

/-- Two pages from the last page of a leaf table on: the second is not mapped. -/
theorem not_map_exact_carry :
    ¬ LeadsToWindow 0x8000#64
        (emptyState [0x2000#64, 0x3000#64, 0x4000#64, 0x5000#64]).tmpPt
        (emptyState [0x2000#64, 0x3000#64, 0x4000#64, 0x5000#64]).mem 0x1000#64 ∧
      IsPage 0x1ff000 ∧
      ∃ s', call 0x1000#64 (vmMapPages (kernel 0x8000#64) 1 (.table 0x1000#64) 0x100000#64 2
          0x1ff000 vmFlagWritable) (emptyState [0x2000#64, 0x3000#64, 0x4000#64, 0x5000#64]) =
          .ok ((success, 0x1ff000), s') ∧
        ¬ MapsExactly 0x8000#64 0x1000#64
          (emptyState [0x2000#64, 0x3000#64, 0x4000#64, 0x5000#64]) s' 0x1ff000 0x100000#64 2
          vmFlagWritable := by
  refine ⟨clear_emptyState _, ⟨by decide, by decide, by decide⟩, ?_⟩
  have hrun : (call 0x1000#64 (vmMapPages (kernel 0x8000#64) 1 (.table 0x1000#64) 0x100000#64 2
      0x1ff000 vmFlagWritable)
      (emptyState [0x2000#64, 0x3000#64, 0x4000#64, 0x5000#64])).toOption.any
      (fun x => decide (x.1 = (success, 0x1ff000)) &&
        (x.2.leaf 0x8000#64 0x1000#64 0x200000).isNone) = true := by
    decide +kernel
  obtain ⟨⟨r, s'⟩, hok, htest⟩ := Except.exists_of_any hrun
  rw [Bool.and_eq_true] at htest
  obtain rfl : r = (success, 0x1ff000) := of_decide_eq_true htest.1
  refine ⟨s', hok, fun hexact => ?_⟩
  obtain ⟨-, ⟨e, he, -⟩, -⟩ := hexact.1 1 (by omega)
  have hnone := Option.isNone_iff_eq_none.mp htest.2
  have haddr : 0x1ff000 + 1 * pageSize = 0x200000 := rfl
  rw [haddr, hnone] at he
  cases he

end Mimik.Vm
