/-
# Backing a page

`vm_set_backing` and `vm_vaddr_to_paddr` go the same way: down the walk of the address, as far
as entries are present.  As long as this walk does not come to `tmp_pt`, the first one gives
the frame to the leaf entry that the walk ends in, and the second one reads it back.

Subtables may be shared: the frame is then that of all addresses whose walks end in the same
leaf entry, and of no others.
-/
import Mimik.VmLeafCall

namespace Mimik.Vm

open FaultState

/-! ## Walks -/

section Walks

variable {tmpPaddr p paddr : PAddr} {tmpPt : ℕ → Pte} {mem : Tables} {t₀ : FlatState}
  {i j : ℕ} {path index : List ℕ}

/-- The walk of a path does not come to `tmp_pt`. -/
structure StaysAway (tmpPaddr : PAddr) (mem : Tables) (p : PAddr) (path : List ℕ) : Prop where
  start : p ≠ tmpPaddr
  next : ∀ slot ∈ pageTables.slots mem p path.dropLast, present (mem slot.1 slot.2) = true →
    ptePaddr (mem slot.1 slot.2) ≠ tmpPaddr

/-- The rest of the walk does not either. -/
theorem StaysAway.tail (h : StaysAway tmpPaddr mem p (i :: j :: path))
    (hpres : present (mem p i) = true) : StaysAway tmpPaddr mem (ptePaddr (mem p i))
    (j :: path) := by
  have hslots : pageTables.slots mem p (i :: j :: path).dropLast =
      (p, i) :: pageTables.slots mem (ptePaddr (mem p i)) (j :: path).dropLast := by
    rw [List.dropLast_cons_cons, Radix.slots, if_pos (show pageTables.present _ = true from hpres)]
    rfl
  have hnext := h.next
  rw [hslots] at hnext
  exact ⟨hnext (p, i) List.mem_cons_self hpres,
    fun slot hslot => hnext slot (List.mem_cons_of_mem _ hslot)⟩

/-- A walk reads all its entries when they are all present. -/
theorem leaf_isSome_iff (hpath : path ≠ []) : (pageTables.leaf mem p path).isSome = true ↔
    ∀ slot ∈ pageTables.slots mem p path, present (mem slot.1 slot.2) = true := by
  induction path generalizing p with
  | nil => exact absurd rfl hpath
  | cons i path ih =>
    have hentry : pageTables.present (mem p i) = present (mem p i) := rfl
    cases path with
    | nil =>
      rw [Radix.slots_singleton, List.forall_mem_singleton]
      show (pageTables.entry mem (p, i)).isSome = true ↔ present (mem p i) = true
      rw [Radix.entry, hentry]
      split
      next h => exact iff_of_true rfl h
      next h => exact iff_of_false Bool.false_ne_true h
    | cons j path =>
      rw [Radix.leaf_cons (List.cons_ne_nil _ _), Radix.slots, List.forall_mem_cons, hentry]
      split
      next h =>
        rw [and_iff_right h]
        exact ih (List.cons_ne_nil _ _)
      next h => exact iff_of_false Bool.false_ne_true fun hall => h hall.1

/-- What `recurse_find` returns for the leaf entry of the walk. -/
def found : Option Pte → Status × PAddr
  | some e => (success, ptePaddr e)
  | none => (-enomap, 0#64)

/-- **`recurse_find`** returns what the walk ends in. -/
theorem recurseFind_ran (height : ℕ) (hlen : index.length = height + 1)
    (haway : StaysAway tmpPaddr (view tmpPaddr tmpPt t₀.mem) p index) :
    Total (fun t => t = t₀) (recurseFind (flat tmpPaddr) height index p) fun r t =>
      t = t₀ ∧ r = found (pageTables.leaf (view tmpPaddr tmpPt t₀.mem) p index) := by
  have hview : ∀ {p} i, p ≠ tmpPaddr → view tmpPaddr tmpPt t₀.mem p i = t₀.mem p i :=
    fun i hne => by rw [view_of_ne hne]
  induction height generalizing index p with
  | zero =>
    obtain ⟨i, rfl⟩ := List.length_eq_one_iff.mp hlen
    have hleaf : pageTables.leaf (view tmpPaddr tmpPt t₀.mem) p [i] =
        if present (t₀.mem p i) = true then some (t₀.mem p i) else none := by
      rw [← hview i haway.start]
      rfl
    apply Total.bind (Q := fun e t => t = t₀ ∧ e = t₀.mem p i)
      (flatTotal_read p i fun t ht => ⟨ht, by rw [ht]⟩)
    intro e
    apply Total.ite
    · intro hpres
      apply Total.pure
      rintro t ⟨rfl, rfl⟩
      rw [hleaf, if_pos hpres]
      exact ⟨rfl, rfl⟩
    · intro habs
      apply Total.pure
      rintro t ⟨rfl, rfl⟩
      rw [hleaf, if_neg habs]
      exact ⟨rfl, rfl⟩
  | succ height ih =>
    obtain ⟨i, index, rfl⟩ := List.exists_cons_of_length_eq_add_one hlen
    have hlen' : index.length = height + 1 := by simpa using hlen
    obtain ⟨j, path, rfl⟩ := List.exists_cons_of_length_eq_add_one hlen'
    have hentry := hview i haway.start
    have hleaf : pageTables.leaf (view tmpPaddr tmpPt t₀.mem) p (i :: j :: path) =
        if present (t₀.mem p i) = true then
          pageTables.leaf (view tmpPaddr tmpPt t₀.mem) (ptePaddr (t₀.mem p i)) (j :: path)
        else none := by
      rw [← hentry]
      exact Radix.leaf_cons (List.cons_ne_nil _ _)
    apply Total.bind (Q := fun e t => t = t₀ ∧ e = t₀.mem p i)
      (flatTotal_read p i fun t ht => ⟨ht, by rw [ht]⟩)
    intro e
    apply Total.ite
    · intro hpres
      apply Total.of_start
      rintro t ⟨rfl, rfl⟩
      have htail := haway.tail (by rw [hentry]; exact hpres)
      rw [hentry] at htail
      apply flatTotal_withTable _ (by rw [ptePaddr_ptePaddr]; exact htail.start)
      rw [ptePaddr_ptePaddr, hleaf, if_pos hpres]
      exact ih hlen' htail
    · intro habs
      apply Total.pure
      rintro t ⟨rfl, rfl⟩
      rw [hleaf, if_neg habs]
      exact ⟨rfl, rfl⟩

/-- **`recurse_set_backing`** gives the frame to the leaf entry that the walk ends in, or does
nothing when an entry is not present. -/
theorem recurseSetBacking_ran (height : ℕ) (hlen : index.length = height + 1)
    (haway : StaysAway tmpPaddr (view tmpPaddr tmpPt t₀.mem) p index) :
    Total (fun t => t = t₀) (recurseSetBacking (flat tmpPaddr) paddr height index p) fun res t =>
      (pageTables.leaf (view tmpPaddr tmpPt t₀.mem) p index = none ∧ res = -enomap ∧ t = t₀) ∨
      ∃ q i, pageTables.leafSlot (view tmpPaddr tmpPt t₀.mem) p index = some (q, i) ∧
        q ≠ tmpPaddr ∧ present (t₀.mem q i) = true ∧ res = success ∧
        t = t₀.set q i (setBackingPte (t₀.mem q i) paddr) := by
  have hview : ∀ {p} i, p ≠ tmpPaddr → view tmpPaddr tmpPt t₀.mem p i = t₀.mem p i :=
    fun i hne => by rw [view_of_ne hne]
  induction height generalizing index p with
  | zero =>
    obtain ⟨i, rfl⟩ := List.length_eq_one_iff.mp hlen
    apply Total.bind (Q := fun e t => t = t₀ ∧ e = t₀.mem p i)
      (flatTotal_read p i fun t ht => ⟨ht, by rw [ht]⟩)
    intro e
    apply Total.ite
    · intro hpres
      apply Total.bind (Q := fun _ t => e = t₀.mem p i ∧ t = t₀.set p i (setBackingPte e paddr))
        (flatTotal_write p i _ fun t ht => ⟨ht.2, by rw [ht.1]⟩)
      intro _
      apply Total.pure
      rintro t ⟨rfl, rfl⟩
      exact .inr ⟨p, i, rfl, haway.start, hpres, rfl, rfl⟩
    · intro habs
      apply Total.pure
      rintro t ⟨rfl, rfl⟩
      refine .inl ⟨?_, rfl, rfl⟩
      rw [← hview i haway.start] at habs
      exact if_neg habs
  | succ height ih =>
    obtain ⟨i, index, rfl⟩ := List.exists_cons_of_length_eq_add_one hlen
    have hlen' : index.length = height + 1 := by simpa using hlen
    obtain ⟨j, path, rfl⟩ := List.exists_cons_of_length_eq_add_one hlen'
    have hentry := hview i haway.start
    apply Total.bind (Q := fun e t => t = t₀ ∧ e = t₀.mem p i)
      (flatTotal_read p i fun t ht => ⟨ht, by rw [ht]⟩)
    intro e
    apply Total.ite
    · intro hpres
      apply Total.of_start
      rintro t ⟨rfl, rfl⟩
      have hpres' : present (view tmpPaddr tmpPt t.mem p i) = true := by rwa [hentry]
      have htail := haway.tail hpres'
      rw [hentry] at htail
      apply flatTotal_withTable _ (by rw [ptePaddr_ptePaddr]; exact htail.start)
      rw [ptePaddr_ptePaddr]
      apply (ih hlen' htail).mono fun _ ht => ht
      rintro res t' (⟨hleaf, hrest⟩ | ⟨q, k, hslot, hrest⟩)
      · refine .inl ⟨?_, hrest⟩
        rw [Radix.leaf_cons (List.cons_ne_nil _ _), hentry]
        exact (if_pos hpres).trans hleaf
      · refine .inr ⟨q, k, ?_, hrest⟩
        rw [Radix.leafSlot_cons (List.cons_ne_nil _ _), hentry]
        exact (if_pos hpres).trans hslot
    · intro habs
      apply Total.pure
      rintro t ⟨rfl, rfl⟩
      refine .inl ⟨?_, rfl, rfl⟩
      rw [Radix.leaf_cons (List.cons_ne_nil _ _), hentry]
      exact if_neg habs

end Walks

/-! ## Calls -/

section Calls

variable {tmpPaddr root paddr : PAddr} {s s' : VmState} {vaddr u : ℕ}

/-- The walk of an address does not come to `tmp_pt`. -/
def WalksAway (tmpPaddr root : PAddr) (s : VmState) (vaddr : ℕ) : Prop :=
  StaysAway tmpPaddr (s.tables tmpPaddr) root (indices vaddr)

/-- All four entries of the walk of an address are present. -/
def WalkPresent (tmpPaddr root : PAddr) (s : VmState) (vaddr : ℕ) : Prop :=
  ∀ slot ∈ pageTables.slots (s.tables tmpPaddr) root (indices vaddr),
    present (s.tables tmpPaddr slot.1 slot.2) = true

/-- `vm_vaddr_to_paddr` returns a status and, on success, an address. -/
def Translates (tmpPaddr root : PAddr) (s : VmState) (vaddr : ℕ) (r : Status × PAddr) : Prop :=
  ∃ s', call root (vmVaddrToPaddr (kernel tmpPaddr) (.table root) vaddr) s = .ok (r, s')

/-- What `vm_vaddr_to_paddr` returns for the leaf entry of an address. -/
def located (vaddr : ℕ) : Option Pte → Status × PAddr
  | some e => (success, ptePaddr e ||| BitVec.ofNat 64 (vaddr % pageSize))
  | none => (-enomap, 0#64)

/-- `vm_vaddr_to_paddr` on the machine without a window. -/
theorem vmVaddrToPaddr_ran (haway : WalksAway tmpPaddr root s vaddr) :
    Total (fun t => t = s.flat) (vmVaddrToPaddr (flat tmpPaddr) root vaddr) fun r _ =>
      r = located vaddr (s.leaf tmpPaddr root vaddr) := by
  have hfind : Total (fun t => t = s.flat) (recurseFind (flat tmpPaddr) 3 (indices vaddr) root)
      fun r t => t = s.flat ∧ r = found (s.leaf tmpPaddr root vaddr) := recurseFind_ran 3 rfl haway
  apply Total.bind hfind
  rintro ⟨res, frame⟩
  cases s.leaf tmpPaddr root vaddr with
  | none =>
    apply Total.ite
    · intro hres
      apply Total.pure
      rintro t ⟨-, heq⟩
      rw [hres] at heq
      have hfst : success = -enomap := congrArg Prod.fst heq
      exact absurd hfst (by decide)
    · exact fun _ => Total.pure fun t ht => ht.2
  | some e =>
    apply Total.ite
    · intro _
      apply Total.pure
      rintro t ⟨-, heq⟩
      cases heq
      rfl
    · intro hres
      apply Total.pure
      rintro t ⟨-, heq⟩
      exact absurd (congrArg Prod.fst heq) hres

/-- **`vm_vaddr_to_paddr`** returns the address that the walk says. -/
theorem translates_iff (hwin : WindowOk s.tmpPt s.firstFreeTmpIndex) (hroom : Room 3 s.tmpPt)
    (haway : WalksAway tmpPaddr root s vaddr) (r : Status × PAddr) :
    Translates tmpPaddr root s vaddr r ↔ r = located vaddr (s.leaf tmpPaddr root vaddr) := by
  obtain ⟨r', t, hflat, hr'⟩ := (vmVaddrToPaddr_ran haway).run s.flat rfl
  obtain ⟨s', hok, -⟩ := flat_call (fun _ _ hlevel _ _ hpt => sim_vmVaddrToPaddr hlevel hpt ..)
    hwin hroom haway.start hflat
  constructor
  · rintro ⟨s₁, hok₁⟩
    rw [hok] at hok₁
    cases hok₁
    exact hr'
  · rintro rfl
    exact ⟨s', hr' ▸ hok⟩

/-- What `vm_set_backing` leaves: nothing new where an entry of the walk is not present, else the
frame in the leaf entry. -/
inductive Backed (tmpPaddr root : PAddr) (vaddr : ℕ) (paddr : PAddr) (s s' : VmState) :
    Status → Prop
  | absent : s.leaf tmpPaddr root vaddr = none → s'.mem = s.mem →
      Backed tmpPaddr root vaddr paddr s s' (-enomap)
  | stored (q : PAddr) (i : ℕ) : s.leafSlot tmpPaddr root vaddr = some (q, i) → q ≠ tmpPaddr →
      present (s.mem q i) = true → s'.mem = s.mem.set q i (setBackingPte (s.mem q i) paddr) →
      Backed tmpPaddr root vaddr paddr s s' success

/-- `vm_set_backing` on the machine without a window. -/
theorem vmSetBacking_ran (haway : WalksAway tmpPaddr root s vaddr) (hv : vaddr % pageSize = 0)
    (hal : paddr.toNat % pageSize = 0) :
    Total (fun t => t = s.flat) (vmSetBacking (flat tmpPaddr) root vaddr paddr) fun res t =>
      (s.leaf tmpPaddr root vaddr = none ∧ res = -enomap ∧ t = s.flat) ∨
      ∃ q i, s.leafSlot tmpPaddr root vaddr = some (q, i) ∧ q ≠ tmpPaddr ∧
        present (s.mem q i) = true ∧ res = success ∧
        t = s.flat.set q i (setBackingPte (s.mem q i) paddr) := by
  rw [vmSetBacking, check, if_pos (decide_eq_true hv), check, if_pos (decide_eq_true hal),
    pure_bind, pure_bind]
  exact recurseSetBacking_ran 3 rfl haway

/-- **`vm_set_backing`** returns, leaves the window alone and gives the frame to the leaf entry. -/
theorem setBacking_backed (hwin : WindowOk s.tmpPt s.firstFreeTmpIndex) (hroom : Room 3 s.tmpPt)
    (haway : WalksAway tmpPaddr root s vaddr) (hv : vaddr % pageSize = 0)
    (hal : paddr.toNat % pageSize = 0) :
    ∃ r s', call root (vmSetBacking (kernel tmpPaddr) (.table root) vaddr paddr) s = .ok (r, s') ∧
      s'.tmpPt = s.tmpPt ∧ s'.firstFreeTmpIndex = s.firstFreeTmpIndex ∧
      Backed tmpPaddr root vaddr paddr s s' r := by
  obtain ⟨r, t, hflat, hrest⟩ := (vmSetBacking_ran haway hv hal).run s.flat rfl
  obtain ⟨s', hok, hleaves⟩ := flat_call (fun _ _ hlevel _ _ hpt => sim_vmSetBacking hlevel hpt ..)
    hwin hroom haway.start hflat
  refine ⟨r, s', hok, hleaves.tmpPt_eq, hleaves.first_eq, ?_⟩
  rcases hrest with ⟨hleaf, rfl, rfl⟩ | ⟨q, i, hslot, hne, hpres, rfl, rfl⟩
  · exact .absent hleaf hleaves.mem_eq
  · exact .stored q i hslot hne hpres hleaves.mem_eq

/-- The store of a frame is one to a leaf table. -/
theorem leafStores_set {q : PAddr} {i : ℕ} {e : Pte}
    (hslot : s.leafSlot tmpPaddr root vaddr = some (q, i)) (hne : q ≠ tmpPaddr) :
    LeafStores tmpPaddr s.tmpPt root s.mem (s.mem.set q i e) (· = (q, i)) where
  leaf slot heq := by
    rw [heq]
    exact ⟨(Radix.At.root.leafSlot (fun _ hj => indices_lt hj) hslot).1, hne⟩
  other slot hother := by
    rw [Tables.set_apply, if_neg fun heq => hother (Prod.ext heq.1 heq.2)]

/-- Such stores move no walk: those that stay away from `tmp_pt` do so. -/
theorem LeafStores.staysAway {mem mem' : Tables} {tmpPt : ℕ → Pte} {frames : List PAddr}
    {places : PAddr × ℕ → Prop} (h : LeafStores tmpPaddr tmpPt root mem mem' places)
    (hordered : Ordered tmpPaddr tmpPt root mem frames) {path : List ℕ} (hpath : IsPath path)
    (haway : StaysAway tmpPaddr (view tmpPaddr tmpPt mem) root path) :
    StaysAway tmpPaddr (view tmpPaddr tmpPt mem') root path where
  start := haway.start
  next slot hslot hpres := by
    have hidx : ∀ i ∈ path.dropLast, i < 512 := fun i hi => hpath.2 i (List.mem_of_mem_dropLast hi)
    have hlen : path.dropLast.length = 3 := by rw [List.length_dropLast, hpath.1]
    have hsame : pageTables.slots (view tmpPaddr tmpPt mem') root path.dropLast =
        pageTables.slots (view tmpPaddr tmpPt mem) root path.dropLast := by
      refine Radix.slots_upper (d := 3) (fun n hn p hp i _ => ?_) .root (by omega) hidx
      rw [h.upper hordered hn hp i]
      exact ⟨rfl, fun _ => rfl⟩
    rw [hsame] at hslot
    obtain ⟨m, -, hm, hat, -⟩ := Radix.At.root.slots hidx hslot
    rw [h.upper hordered (by omega) hat] at hpres ⊢
    exact haway.next slot hslot hpres

/-- An address in a page has the walk of the page. -/
theorem indices_offset {o : ℕ} (hv : vaddr % pageSize = 0) (ho : o < pageSize) :
    indices (vaddr + o) = indices vaddr := by
  have hnumber : pageNumber (vaddr + o) = pageNumber vaddr := by
    rw [pageNumber, pageNumber]
    rw [pageSize] at *
    omega
  rw [indices_eq_digits, hnumber, ← indices_eq_digits]

/-- The address of a byte of a page frame. -/
theorem or_offset {o : ℕ} (hal : paddr.toNat % pageSize = 0) (ho : o < pageSize) :
    paddr ||| BitVec.ofNat 64 o = paddr + BitVec.ofNat 64 o := by
  rw [pageSize] at hal ho
  have hsum : paddr.toNat + o = paddr.toNat ||| o := by
    obtain ⟨k, hk⟩ := Nat.dvd_of_mod_eq_zero hal
    rw [hk]
    exact Nat.two_pow_add_eq_or_of_lt (show o < 2 ^ 12 from ho) k
  have hlt := paddr.isLt
  apply BitVec.eq_of_toNat_eq
  rw [BitVec.toNat_or, BitVec.toNat_add, BitVec.toNat_ofNat, Nat.mod_eq_of_lt (by omega), ← hsum,
    Nat.mod_eq_of_lt (by omega)]

/-- What is to be shown of `vm_set_backing`. -/
structure BacksPage (tmpPaddr root : PAddr) (s : VmState) (vaddr : ℕ) (paddr : PAddr)
    (r : Status) (s' : VmState) : Prop where
  status : r = success ∨ r = -enomap
  success_iff : r = success ↔ WalkPresent tmpPaddr root s vaddr
  backed : r = success → ∀ o < pageSize,
    ∀ x, Translates tmpPaddr root s' (vaddr + o) x ↔ x = (success, paddr + BitVec.ofNat 64 o)
  flags : r = success → ∃ e e', s.leaf tmpPaddr root vaddr = some e ∧
    s'.leaf tmpPaddr root vaddr = some e' ∧ e' &&& ~~~paddrMask = e &&& ~~~paddrMask
  others : r = success → ∀ u, s.leafSlot tmpPaddr root u ≠ s.leafSlot tmpPaddr root vaddr →
    s'.leaf tmpPaddr root u = s.leaf tmpPaddr root u ∧ (WalksAway tmpPaddr root s u →
      ∀ x, Translates tmpPaddr root s' u x ↔ Translates tmpPaddr root s u x)
  failed : r = -enomap → s'.tables tmpPaddr = s.tables tmpPaddr

/-- **Backing, then translating.**  `vm_set_backing` succeeds exactly on pages whose walk is
present.  Then the addresses of the page are translated to the frame, the permissions of its leaf
entry are as before, and so is every address whose walk ends in another leaf entry; otherwise no
entry changes. -/
theorem setBacking_backsPage (hwin : WindowOk s.tmpPt s.firstFreeTmpIndex)
    (hroom : Room 3 s.tmpPt) (hordered : Ordered tmpPaddr s.tmpPt root s.mem [])
    (haway : WalksAway tmpPaddr root s vaddr) (hv : vaddr % pageSize = 0)
    (hal : paddr.toNat % pageSize = 0) (hlt : paddr.toNat < 2 ^ 52) :
    ∃ r s', call root (vmSetBacking (kernel tmpPaddr) (.table root) vaddr paddr) s = .ok (r, s') ∧
      BacksPage tmpPaddr root s vaddr paddr r s' := by
  obtain ⟨r, s', hok, htmp, hfirst, hbacked⟩ := setBacking_backed hwin hroom haway hv hal
  refine ⟨r, s', hok, ?_⟩
  have hpresent : WalkPresent tmpPaddr root s vaddr ↔
      (s.leaf tmpPaddr root vaddr).isSome = true := (leaf_isSome_iff (List.cons_ne_nil _ _)).symm
  cases hbacked with
  | absent hleaf hmem =>
    have hne : -enomap ≠ success := by decide
    have htables : s'.tables tmpPaddr = s.tables tmpPaddr := by
      rw [VmState.tables, htmp, hmem]
      rfl
    refine ⟨.inr rfl, iff_of_false hne ?_, (absurd · hne), (absurd · hne), (absurd · hne),
      fun _ => htables⟩
    rw [hpresent, hleaf]
    exact Bool.false_ne_true
  | stored q i hslot hne hpres hmem =>
    have hstores : LeafStores tmpPaddr s.tmpPt root s.mem s'.mem (· = (q, i)) := by
      rw [hmem]
      exact leafStores_set hslot hne
    have htables : s'.tables tmpPaddr = view tmpPaddr s.tmpPt s'.mem := by
      rw [VmState.tables, htmp]
    have hleafSlot : ∀ u, s'.leafSlot tmpPaddr root u = s.leafSlot tmpPaddr root u := by
      intro u
      rw [VmState.leafSlot, htables]
      exact hstores.leafSlot hordered (isPath_indices u)
    have haway' : ∀ {u}, WalksAway tmpPaddr root s u → WalksAway tmpPaddr root s' u := by
      intro u hu
      rw [WalksAway, htables]
      exact hstores.staysAway hordered (isPath_indices u) hu
    have hentry : s.tables tmpPaddr q i = s.mem q i := by rw [VmState.tables, view_of_ne hne]
    have hentry' : s'.tables tmpPaddr q i = setBackingPte (s.mem q i) paddr := by
      rw [htables, view_of_ne hne, hmem, Tables.set_apply, if_pos ⟨rfl, rfl⟩]
    have hold : s.leaf tmpPaddr root vaddr = some (s.mem q i) :=
      Radix.leaf_eq_some_iff.mpr ⟨(q, i), hslot, hpres, hentry⟩
    have hnew : s'.leaf tmpPaddr root vaddr = some (setBackingPte (s.mem q i) paddr) :=
      Radix.leaf_eq_some_iff.mpr ⟨(q, i), (hleafSlot vaddr).trans hslot,
        present_setBackingPte hpres, hentry'⟩
    have hframe := ptePaddr_of_page hal hlt
    have hwin' : WindowOk s'.tmpPt s'.firstFreeTmpIndex := by rwa [htmp, hfirst]
    have hroom' : Room 3 s'.tmpPt := by rwa [htmp]
    refine ⟨.inl rfl, iff_of_true rfl ?_, fun _ o ho x => ?_, fun _ => ?_, fun _ u hu => ?_, ?_⟩
    · rw [hpresent, hold]
      rfl
    · have hpath := indices_offset hv ho
      have hwalk : WalksAway tmpPaddr root s' (vaddr + o) := by
        rw [WalksAway, hpath]
        exact haway' haway
      have hmod : (vaddr + o) % pageSize = o := by
        rw [pageSize] at hv ho ⊢
        omega
      rw [translates_iff hwin' hroom' hwalk, VmState.leaf, hpath, ← VmState.leaf, hnew, located,
        hmod, ptePaddr_setBackingPte hframe, or_offset hal ho]
    · exact ⟨_, _, hold, hnew, setBackingPte_flags hframe _⟩
    · have hkept : s'.leaf tmpPaddr root u = s.leaf tmpPaddr root u := by
        rw [VmState.leaf, htables]
        refine hstores.leaf_eq hordered (isPath_indices u) fun slot hu' heq => hu ?_
        rw [hslot, ← heq]
        exact hu'
      refine ⟨hkept, fun hwalk x => ?_⟩
      rw [translates_iff hwin' hroom' (haway' hwalk), translates_iff hwin hroom hwalk, hkept]
    · exact fun h => absurd h (by decide)

end Calls

/-! ## A shared subtable -/

/-- One page, below two entries of the root. -/
def sharedEntries : List Placed :=
  [(0x1000#64, 0, 0x2003#64), (0x1000#64, 1, 0x2003#64), (0x2000#64, 0, 0x3003#64),
    (0x3000#64, 0, 0x4003#64), (0x4000#64, 0, 0x6003#64), (0x4000#64, 1, 0x7003#64)]

/-- Tables that do not lead to `tmp_pt` are walked without it. -/
theorem walksAway_of_clear {tmpPaddr root : PAddr} {s : VmState} {vaddr : ℕ}
    (hclear : ¬ LeadsToWindow tmpPaddr s.tmpPt s.mem root) : WalksAway tmpPaddr root s vaddr where
  start := root_ne_of_clear hclear
  next slot hslot hpres := by
    have hpaths : ∀ path ∈ [indices vaddr], IsPath path := by
      intro path hpath
      rw [List.mem_singleton.mp hpath]
      exact isPath_indices vaddr
    exact avoid_of_clear hclear hpaths ⟨_, List.mem_singleton_self _, hslot, hpres⟩

/-- The page is backed by another frame through the second entry. -/
theorem backsPage_shared : ∃ r s', call 0x1000#64 (vmSetBacking (kernel 0x8000#64)
      (.table 0x1000#64) 0x8000000000 0x9000#64) (sparseState sharedEntries []) = .ok (r, s') ∧
    BacksPage 0x8000#64 0x1000#64 (sparseState sharedEntries []) 0x8000000000 0x9000#64 r s' := by
  have hordered : Ordered 0x8000#64 (sparseState sharedEntries []).tmpPt 0x1000#64
      (sparseState sharedEntries []).mem [] :=
    ordered_sparse (by decide +kernel) (by decide +kernel) (List.forall_mem_nil _)
      (fun _ _ => List.not_mem_nil) List.nodup_nil
  exact setBacking_backsPage window_sparse room_sparse hordered
    (walksAway_of_clear (clear_sparse (by decide +kernel))) (by decide) (by decide) (by decide)

end Mimik.Vm
