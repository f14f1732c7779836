/-
# What making a table does to the window

`create_pt` clears the new table with `mem_set(vaddr, 0, PT_SIZE)`.  `mem_set` stores the words of
the range and goes on with a byte for each byte that the number of words falls short of the
size: it clears the 512 entries of the table, and 448 more behind them.  The table is in a slot of
the window, and behind it is the next slot.

Where only the recursion below the call has taken slots, this one is free.  So `create_pt` does not
return, and a call returns what it returns on a machine that makes no tables (`call_source_iff`).
-/
import Mimik.VmMapExact

namespace Mimik.Vm

open FaultState

/-! ## The machine of the source -/

/-- The entries that `mem_set` clears behind a table. -/
def entriesPast : ℕ := (pageSize - pageSize / 8) / 8

/-- These are the bytes that are left when the number of words is taken off the size. -/
example : entriesPast = 448 ∧ entriesPast * 8 + pageSize / 8 = pageSize := by decide

namespace Kernel

variable (tmpPaddr : PAddr)

/-- The state when the first entries of the table at a physical address are cleared. -/
def clearFirst (s : VmState) (p : PAddr) : VmState :=
  if p = tmpPaddr then
    { s with tmpPt := fun i => if i < entriesPast then 0#64 else s.tmpPt i }
  else
    { s with mem := Function.update s.mem p fun i =>
        if i < entriesPast then 0#64 else s.mem p i }

/-- What `mem_set` does behind the slot at an address. -/
def clearPast (vaddr : ℕ) : Prog Fault VmState Unit := fun s =>
  if present (s.tmpPt (tmpIndex (vaddr + pageSize))) then
    .ok ((), clearFirst tmpPaddr s (ptePaddr (s.tmpPt (tmpIndex (vaddr + pageSize)))))
  else .error (.wild "b")

/-- `mem_set(pt, 0, PT_SIZE)`, with what it does behind the table.  `create_pt` calls it for
addresses in the window only; what lies behind other tables is not known. -/
def memSetPast (pt : PtPtr) : Prog Fault VmState Unit := do
  memSet tmpPaddr pt
  match pt with
  | .table _ => fault (.wild "b")
  | .window vaddr => clearPast tmpPaddr vaddr

end Kernel

/-- The machine of the kernel with the `mem_set` of the source. -/
def source (tmpPaddr : PAddr) : Machine VmState PtPtr :=
  (kernel tmpPaddr).withMemSet (Kernel.memSetPast tmpPaddr)

/-- The machine without a window that makes no tables. -/
def bare (tmpPaddr : PAddr) : Machine FlatState PAddr :=
  (flat tmpPaddr).withMemSet fun _ => fault (.wild "b")

variable {tmpPaddr root p paddr paddrStart : PAddr} {tmpPt : ℕ → Pte} {first fuel height level i
  pages vaddrHint n : ℕ} {slots : List ℕ} {room : Prop} {flags : Flags} {index : List ℕ}

/-- It keeps the tables that have been walked. -/
theorem keeps_memSetPast (tmpPaddr q : PAddr) (pt : PtPtr) :
    Keeps (fun s => q ∈ s.opened) (Kernel.memSetPast tmpPaddr pt) := by
  apply Keeps.bind ((keeps_kernel tmpPaddr q).memSet pt)
  intro _
  cases pt with
  | table p => exact Keeps.fault _
  | window vaddr =>
    constructor
    intro s hs _ s' hok
    replace hok : Kernel.clearPast tmpPaddr vaddr s = .ok ((), s') := hok
    rw [Kernel.clearPast] at hok
    split at hok
    next =>
      cases hok
      show q ∈ (Kernel.clearFirst tmpPaddr s _).opened
      rw [Kernel.clearFirst]
      split <;> exact hs
    next => cases hok

/-! ## Windows that are not used from a slot on -/

/-- The slots from `first` on are free, and there are more than `n` of them. -/
structure Vacant (n : ℕ) (tmpPt : ℕ → Pte) (first : ℕ) : Prop where
  lt : first + n < 511
  free : ∀ i, first ≤ i → i < 511 → present (tmpPt i) = false

/-- So they are one level further down. -/
theorem Vacant.opened (h : Vacant (n + 1) tmpPt first) (p : PAddr) :
    Vacant n (openedPt tmpPt first p) (openedFirst tmpPt first p) := by
  have hlt := h.lt
  have hfree : ∀ i, first < i → i < 511 → present (openedPt tmpPt first p i) = false := by
    intro i hi hi'
    rw [openedPt, Function.update_of_ne (by omega)]
    exact h.free i hi.le hi'
  obtain ⟨hnext, -, -, -, hlow⟩ := nextFreeTmpIndex_spec (openedPt tmpPt first p) ptLength first
    (by omega) (by rw [ptLength]; omega)
  -- the next slot is free, and no slot before it is passed
  have heq : openedFirst tmpPt first p = first + 1 := by
    by_contra hne
    have hpres := hlow (first + 1) (by omega) (by rw [openedFirst] at hne; omega) (by omega)
    rw [hfree (first + 1) (by omega) (by omega)] at hpres
    cases hpres
  rw [heq]
  exact ⟨by omega, fun i hi hi' => hfree i (by omega) hi'⟩

/-- Without a table in the window all slots are free. -/
theorem vacant_of_closed (hwin : WindowOk tmpPt first)
    (hclosed : ∀ i < 511, present (tmpPt i) = false) : Vacant 3 tmpPt first := by
  have hzero : first = 0 := by
    by_contra hne
    have hpres := hwin.lowest 0 (by omega) (by decide)
    rw [hclosed 0 (by decide)] at hpres
    cases hpres
  rw [hzero]
  exact ⟨by decide, fun i _ hi => hclosed i hi⟩

/-- Behind the slot that is taken there is nothing. -/
theorem memSetPast_fault (h : Vacant (n + 1) tmpPt first) {s : VmState}
    (htmp : ∀ i, i ≠ first → s.tmpPt i = tmpPt i) (r : Unit × VmState) :
    Kernel.memSetPast tmpPaddr (.window (tmpVaddr first)) s ≠ .ok r := by
  have hlt := h.lt
  have hindex : tmpIndex (tmpVaddr first + pageSize) = first + 1 := by
    have hnext : tmpVaddr first + pageSize = tmpVaddr (first + 1) := by
      rw [tmpVaddr, tmpVaddr, Nat.succ_mul, Nat.add_assoc]
    rw [hnext, tmpIndex_tmpVaddr (by omega)]
  intro hok
  obtain ⟨_, s₁, hset, hpast⟩ := bind_eq_ok_iff.mp hok
  -- also when the table is `tmp_pt`, which is cleared then
  have habs : present (s₁.tmpPt (first + 1)) = false := by
    obtain ⟨q, s₂, hresolve, hclear⟩ := bind_eq_ok_iff.mp hset
    obtain rfl : s = s₂ := by
      replace hresolve : (if present (s.tmpPt (tmpIndex (tmpVaddr first))) = true then
          .ok (ptePaddr (s.tmpPt (tmpIndex (tmpVaddr first))), s)
        else .error (.wild "tmp_pt") : Except Fault (PAddr × VmState)) = .ok (q, s₂) := hresolve
      split at hresolve
      next => cases hresolve; rfl
      next => cases hresolve
    split at hclear
    next => cases hclear; exact present_zero
    next =>
      cases hclear
      show present (s.tmpPt (first + 1)) = false
      rw [htmp (first + 1) (by omega)]
      exact h.free (first + 1) (by omega) (by omega)
  replace hpast : Kernel.clearPast tmpPaddr (tmpVaddr first) s₁ = .ok r := hpast
  rw [Kernel.clearPast, hindex, habs] at hpast
  cases hpast

/-- **In such a window no table is made.** -/
theorem createPt_source (h : Vacant (n + 1) tmpPt first) {s : VmState} (htmp : s.tmpPt = tmpPt)
    (hfirst : s.firstFreeTmpIndex = first) (pt : PtPtr) (i : ℕ) (r : PtPtr × VmState) :
    createPt (source tmpPaddr) pt i s ≠ .ok r := by
  have hlt := h.lt
  have hmod : first % 512 = first := Nat.mod_eq_of_lt (by omega)
  intro hok
  obtain ⟨paddr, s₁, hreq, hrest⟩ := bind_eq_ok_iff.mp hok
  obtain ⟨ptr, s₂, hmap, hrest⟩ := bind_eq_ok_iff.mp hrest
  obtain ⟨_, s₃, hset, -⟩ := bind_eq_ok_iff.mp hrest
  replace hreq : Kernel.pmRequestPage s = .ok (paddr, s₁) := hreq
  rw [Kernel.pmRequestPage] at hreq
  split at hreq
  next => cases hreq
  next =>
    cases hreq
    replace hmap : Kernel.mapPageTmp paddr vmFlagWritable _ = .ok (ptr, s₂) := hmap
    rw [Kernel.mapPageTmp] at hmap
    split at hmap
    next =>
      cases hmap
      rw [hfirst, hmod] at hset
      refine memSetPast_fault h (fun j hj => ?_) ((), s₃) hset
      show Function.update s.tmpPt (first % 512) _ j = tmpPt j
      rw [hmod, Function.update_of_ne hj, htmp]
    next => cases hmap

/-! ## The machine without tables -/

/-- It does not come to the end of `create_pt` either, nor does it stray. -/
theorem createPt_bare {t : FlatState} (h : Sound tmpPaddr root t) (p : PAddr) (i : ℕ) :
    ∃ f, f ≠ strayed ∧ createPt (bare tmpPaddr) p i t = .error f := by
  cases hframes : t.frames with
  | nil =>
    refine ⟨swapped, by decide, bind_eq_error ?_ _⟩
    show (flat tmpPaddr).pmRequestPage t = _
    simp only [flat, hframes]
    rfl
  | cons f frames =>
    have hf : f ∈ t.frames := by rw [hframes]; exact List.mem_cons_self
    have hne : ptePaddr f ≠ tmpPaddr := by
      rw [h.aligned f hf]
      rintro rfl
      exact h.noTmp hf
    have hreq : (bare tmpPaddr).pmRequestPage t = .ok (f, { t with frames }) := by
      show (flat tmpPaddr).pmRequestPage t = _
      simp only [flat, hframes]
    have hmap : (bare tmpPaddr).mapPageTmp f vmFlagWritable { t with frames } =
        .ok (ptePaddr f, { t with frames }) := by
      show (if _ then _ else _ : Prog Fault FlatState PAddr) _ = _
      rw [if_neg hne]
      rfl
    refine ⟨.wild "b", by decide, ?_⟩
    rw [createPt, bind_eq_of_ok hreq, bind_eq_of_ok hmap]
    exact bind_eq_error (x := (bare tmpPaddr).memSet (ptePaddr f)) rfl _

/-- The machines do the same in windows whose slots are free from the lowest free one on. -/
theorem makesSame_source : MakesSame tmpPaddr room Vacant (Kernel.memSetPast tmpPaddr)
    (fun _ => fault (.wild "b")) where
  keeps := keeps_memSetPast tmpPaddr tmpPaddr
  opened h _ p := h.opened p
  creates {n tmpPt first slots} _ h pt p _ i := by
    constructor
    · intro s t hrel q s' hok
      exact absurd hok (createPt_source h hrel.tmpPt_eq hrel.first_eq pt i (q, s'))
    · intro _ s t _ q t' hok
      obtain ⟨paddr, t₁, -, hrest⟩ := bind_eq_ok_iff.mp hok
      obtain ⟨ptr, t₂, -, hrest⟩ := bind_eq_ok_iff.mp hrest
      obtain ⟨_, t₃, hset, -⟩ := bind_eq_ok_iff.mp hrest
      cases hset

/-- The tables are in order and those that there have been are there. -/
structure Steady (tmpPaddr root : PAddr) (t₀ t : FlatState) : Prop where
  sound : Sound tmpPaddr root t
  table : ∀ n ≤ 3, ∀ q, TableOf root t₀.mem n q → TableOf root t.mem n q

theorem Steady.refl {t : FlatState} (h : Sound tmpPaddr root t) : Steady tmpPaddr root t t :=
  ⟨h, fun _ _ _ hq => hq⟩

theorem Steady.visited {t₀ t t' : FlatState} (h : Steady tmpPaddr root t₀ t)
    (hvis : Visited tmpPaddr root level t t') : Steady tmpPaddr root t₀ t' :=
  ⟨hvis.sound, fun n hn q hq => hvis.table n hn q (h.table n hn q hq)⟩

/-- An access that returns in every state. -/
theorem safe_of_apply {σ α : Type} {P : σ → Prop} {x : Prog Fault σ α} {Q : α → σ → Prop}
    {g : Fault} (f : σ → α) (k : σ → σ) (hx : ∀ s, x s = .ok (f s, k s))
    (h : ∀ s, P s → Q (f s) (k s)) : Safe g P x Q :=
  Safe.of_total (Total.of_apply f k hx h)

/-- A leaf table is filled in order. -/
theorem safe_mapLeaf {t₀ : FlatState} (hp : TableOf root t₀.mem 3 p) (v : MapVars) :
    Safe strayed (Steady tmpPaddr root t₀) (mapLeaf (bare tmpPaddr) flags p v)
      (Flow.post (fun _ => Steady tmpPaddr root t₀)
        fun r t => r.1 = success ∧ Steady tmpPaddr root t₀ t) := by
  apply Safe.ite _ fun _ => Safe.pure fun _ ht => ⟨rfl, ht⟩
  intro _
  apply Safe.bind (Q := fun e t => Steady tmpPaddr root t₀ t ∧ e = t.mem p v.i)
  · exact safe_of_apply (fun t => t.mem p v.i) id (fun _ => rfl) fun t ht => ⟨ht, rfl⟩
  · intro e
    apply Safe.ite (fun _ => Safe.pure fun t ht => ht.1)
    intro habs
    apply Safe.bind (Q := fun _ => Steady tmpPaddr root t₀)
    · refine safe_of_apply (fun _ => ()) (fun t => t.set p v.i (setPte v.paddr flags))
        (fun _ => rfl) ?_
      rintro t ⟨ht, rfl⟩
      exact ht.visited (ht.sound.fill (ht.table 3 le_rfl p hp) (Bool.eq_false_iff.mpr habs) _)
    · exact fun _ => Safe.pure fun _ ht => ht

/-- Above the leaf tables the loop goes down where there is a table, and ends where there is
none. -/
theorem safe_mapInner {child : PAddr → PAddr → ℕ → Prog Fault FlatState (Status × MapVars)}
    (hlevel : level < 3) (hchild : ∀ q paddr pages t₁, TableOf root t₁.mem (level + 1) q →
      Safe strayed (Steady tmpPaddr root t₁) (child q paddr pages)
        fun r t => r.1 = success ∧ Steady tmpPaddr root t₁ t)
    {t₀ : FlatState} (hp : TableOf root t₀.mem level p) (v : MapVars) :
    Safe strayed (Steady tmpPaddr root t₀) (mapInner (bare tmpPaddr) child flags p v)
      (Flow.post (fun _ => Steady tmpPaddr root t₀)
        fun r t => r.1 = success ∧ Steady tmpPaddr root t₀ t) := by
  apply Safe.ite _ fun _ => Safe.pure fun _ ht => ⟨rfl, ht⟩
  rintro ⟨hi, -⟩
  apply Safe.of_start
  intro t ht
  have hpt : TableOf root t.mem level p := ht.table level (by omega) p hp
  have hvis : Visited tmpPaddr root level t (t.set p v.i (reflag (t.mem p v.i) flags)) :=
    ht.sound.reflag hpt hlevel
  apply Safe.bind (Q := fun e t' => t' = t ∧ e = t.mem p v.i)
  · exact safe_of_apply (fun t => t.mem p v.i) id (fun _ => rfl) fun t' ht' => ⟨ht', by rw [ht']⟩
  intro e
  apply Safe.bind (Q := fun q t' => t' = t ∧ present (t.mem p v.i) = true ∧
    q = ptePaddr (t.mem p v.i))
  · apply Safe.ite
    · intro hpres
      apply Safe.of_total
      constructor
      rintro t' ⟨rfl, rfl⟩
      have hne : ptePaddr (ptePaddr (t'.mem p v.i)) ≠ tmpPaddr := by
        rw [ptePaddr_ptePaddr]
        intro heq
        exact ht.sound.avoids (level + 1) (by omega) (heq ▸ hpt.step hi hpres)
      refine ⟨ptePaddr (t'.mem p v.i), t', ?_, rfl, hpres, rfl⟩
      show (if _ then _ else _ : Prog Fault FlatState PAddr) t' = _
      rw [if_neg hne, ptePaddr_ptePaddr]
      rfl
    · intro _
      constructor
      · constructor
        rintro t' ⟨rfl, -⟩ q t₁ hok
        obtain ⟨f, -, hfault⟩ := createPt_bare ht.sound p v.i
        rw [hfault] at hok
        cases hok
      · rintro t' ⟨rfl, -⟩ hstray
        obtain ⟨f, hne, hfault⟩ := createPt_bare ht.sound p v.i
        rw [hfault] at hstray
        cases hstray
        exact hne rfl
  intro q
  apply Safe.bind (Q := fun _ t' => t' = t.set p v.i (reflag (t.mem p v.i) flags) ∧
    present (t.mem p v.i) = true ∧ q = ptePaddr (t.mem p v.i))
  · refine safe_of_apply (fun _ => ()) (fun t => t.set p v.i (reflag (t.mem p v.i) flags))
      (fun _ => rfl) ?_
    rintro t' ⟨rfl, h⟩
    exact ⟨rfl, h⟩
  intro _
  apply Safe.of_start
  rintro t₁ ⟨rfl, hpres, rfl⟩
  apply Safe.bind (Q := fun r t' => r.1 = success ∧ Steady tmpPaddr root t₀ t')
  · have hnext : TableOf root (t.set p v.i (reflag (t.mem p v.i) flags)).mem (level + 1)
        (ptePaddr (t.mem p v.i)) := hvis.table (level + 1) (by omega) _ (hpt.step hi hpres)
    apply (hchild _ v.paddr v.pages _ hnext).mono
    · rintro _ rfl
      exact Steady.refl hvis.sound
    · rintro r t' ⟨hres, ht'⟩
      exact ⟨hres, ht'.sound, fun n hn q hq =>
        ht'.table n hn q (hvis.table n hn q (ht.table n hn q hq))⟩
  rintro ⟨res, w⟩
  apply Safe.bind (Q := fun _ t' => res = success ∧ Steady tmpPaddr root t₀ t')
  · exact safe_of_apply (fun _ => ()) id (fun _ => rfl) fun _ h => h
  intro _
  apply Safe.of_start
  rintro t' ⟨rfl, ht'⟩
  exact Safe.pure fun _ heq => heq ▸ ht'

/-- `recurse_map` does not stray, and returns `SUCCESS` if it returns. -/
theorem safe_recurseMap (height : ℕ) (hheight : height ≤ 3) (index : List ℕ) (p paddr : PAddr)
    (pages : ℕ) {t₀ : FlatState} (hp : TableOf root t₀.mem (3 - height) p) :
    Safe strayed (Steady tmpPaddr root t₀)
      (recurseMap (bare tmpPaddr) flags height index p paddr pages)
      fun r t => r.1 = success ∧ Steady tmpPaddr root t₀ t := by
  induction height generalizing index p paddr pages t₀ with
  | zero =>
    exact Safe.rounds (fun _ => Steady tmpPaddr root t₀) (safe_mapLeaf hp)
      (fun _ => Safe.pure fun _ ht => ⟨rfl, ht⟩) ptLength _
  | succ height ih =>
    apply Safe.rounds (fun _ => Steady tmpPaddr root t₀) _
      (fun _ => Safe.pure fun _ ht => ⟨rfl, ht⟩) ptLength
    refine safe_mapInner (by omega) (fun q paddr pages t₁ hq => ?_) hp
    apply ih (by omega)
    rwa [show 3 - height = 3 - (height + 1) + 1 by omega]

/-! ## Ranges whose leaf table there is, and others -/

/-- Behind an entry that is not present it does not return. -/
theorem recurseMap_of_none {t : FlatState} (hlen : index.length = height + 1)
    (hidx : ∀ i ∈ index, i < ptLength) (hpages : 0 < pages)
    (hnone : pageTables.leafSlot t.mem p index = none) (r : (Status × MapVars) × FlatState) :
    recurseMap (bare tmpPaddr) flags height index p paddr pages t ≠ .ok r := by
  induction height generalizing index p t r with
  | zero =>
    obtain ⟨i, rfl⟩ := List.length_eq_one_iff.mp hlen
    cases hnone
  | succ height ih =>
    obtain ⟨i, path, rfl⟩ := List.exists_cons_of_length_eq_add_one hlen
    have hlen' : path.length = height + 1 := by simpa using hlen
    have hi : i < ptLength := hidx i List.mem_cons_self
    rw [Radix.leafSlot_cons (by rintro rfl; cases hlen')] at hnone
    intro hok
    obtain ⟨flow, t₁, hround, -⟩ := bind_eq_ok_iff.mp hok
    replace hround : mapInner (bare tmpPaddr) (recurseMap (bare tmpPaddr) flags height path) flags p
        { i, paddr, pages } t = .ok (flow, t₁) := hround
    rw [mapInner, if_pos ⟨hi, hpages⟩] at hround
    obtain ⟨e, t₂, hread, hround⟩ := bind_eq_ok_iff.mp hround
    obtain ⟨q, t₃, hopen, hround⟩ := bind_eq_ok_iff.mp hround
    obtain ⟨_, t₄, hupdate, hround⟩ := bind_eq_ok_iff.mp hround
    obtain ⟨r', t₅, hchild, -⟩ := bind_eq_ok_iff.mp hround
    cases hread
    by_cases hpres : present (t.mem p i) = true
    · rw [if_pos hpres] at hopen
      rw [if_pos (show pageTables.present (t.mem p i) = true from hpres)] at hnone
      replace hopen : (if ptePaddr (ptePaddr (t.mem p i)) = tmpPaddr then fault strayed
        else pure (ptePaddr (ptePaddr (t.mem p i))) : Prog Fault FlatState PAddr) t =
          .ok (q, t₃) := hopen
      split at hopen
      next => cases hopen
      next =>
        rw [ptePaddr_ptePaddr] at hopen
        cases hopen
        cases hupdate
        have hflagged : Flagged flags _ _ t.mem (t.mem.set p i (reflag (t.mem p i) flags)) :=
          Flagged.reflag t.mem p i
        refine ih hlen' (fun j hj => hidx j (List.mem_cons_of_mem _ hj)) ?_ _ hchild
        show pageTables.leafSlot (t.mem.set p i (reflag (t.mem p i) flags)) _ path = none
        rw [hflagged.sameShape.leafSlot]
        exact hnone
    · rw [if_neg hpres] at hopen
      obtain ⟨f, t₆, -, hopen⟩ := bind_eq_ok_iff.mp hopen
      obtain ⟨ptr, t₇, -, hopen⟩ := bind_eq_ok_iff.mp hopen
      obtain ⟨_, t₈, hset, -⟩ := bind_eq_ok_iff.mp hopen
      cases hset

/-- The loop on a leaf table fills entries that are not present one after the other. -/
theorem mapLeaf_rounds {t : FlatState} (hfit : i + pages ≤ ptLength) (hn : pages ≤ n)
    (habs : ∀ k < pages, present (t.mem p (i + k)) = false) :
    ∃ w t', rounds (mapLeaf (bare tmpPaddr) flags p) (fun v => return (success, v)) n
      { i, paddr, pages } t = .ok ((success, w), t') ∧ w.pages = 0 := by
  induction n generalizing i paddr pages t with
  | zero => exact ⟨_, t, rfl, Nat.le_zero.mp hn⟩
  | succ n ih =>
    by_cases hzero : pages = 0
    · have hround : mapLeaf (bare tmpPaddr) flags p { i, paddr, pages } t =
          .ok (.done (success, { i, paddr, pages }), t) := by
        rw [mapLeaf, if_neg (by rintro ⟨-, hpos⟩; exact hpos.ne' hzero)]
        rfl
      exact ⟨_, t, rounds_of_done hround n, hzero⟩
    · have hround : mapLeaf (bare tmpPaddr) flags p { i, paddr, pages } t =
          .ok (.next { i := i + 1, paddr := paddr + 4096#64, pages := pages - 1 },
            t.set p i (setPte paddr flags)) := by
        have hpos : 0 < pages := Nat.pos_of_ne_zero hzero
        have hi : i < ptLength := by omega
        have hread : (bare tmpPaddr).read p i t = .ok (t.mem p i, t) := rfl
        have hfirst : present (t.mem p i) = false := habs 0 hpos
        rw [mapLeaf, if_pos ⟨hi, hpos⟩, bind_eq_of_ok hread, hfirst]
        rfl
      rw [rounds_of_next hround]
      apply ih (by omega) (by omega)
      intro k hk
      rw [FlatState.set_mem, Tables.set_apply, if_neg (by omega), Nat.add_right_comm, Nat.add_assoc]
      exact habs (k + 1) (by omega)

/-- In a leaf table that there is, entries that are not present are filled. -/
theorem recurseMap_of_some {t : FlatState} (h : Sound tmpPaddr root t)
    (hlen : index.length = height + 1) (hidx : ∀ i ∈ index, i < ptLength)
    (hp : TableOf root t.mem level p) (hlevel : level + height = 3) (hpages : 0 < pages)
    {q : PAddr} (hslot : pageTables.leafSlot t.mem p index = some (q, i))
    (hfit : i + pages ≤ ptLength) (habs : ∀ k < pages, present (t.mem q (i + k)) = false) :
    ∃ w t', recurseMap (bare tmpPaddr) flags height index p paddr pages t =
      .ok ((success, w), t') ∧ w.pages = 0 := by
  induction height generalizing index p level t with
  | zero =>
    obtain ⟨j, rfl⟩ := List.length_eq_one_iff.mp hlen
    cases hslot
    exact mapLeaf_rounds hfit (by omega) habs
  | succ height ih =>
    obtain ⟨j, path, rfl⟩ := List.exists_cons_of_length_eq_add_one hlen
    have hlen' : path.length = height + 1 := by simpa using hlen
    have hj : j < ptLength := hidx j List.mem_cons_self
    rw [Radix.leafSlot_cons (by rintro rfl; cases hlen')] at hslot
    split at hslot
    next hpres =>
      have hnext := hp.step hj hpres
      have hvis : Visited tmpPaddr root level t (t.set p j (reflag (t.mem p j) flags)) :=
        h.reflag hp (by omega)
      have hflagged : Flagged flags _ _ t.mem (t.mem.set p j (reflag (t.mem p j) flags)) :=
        Flagged.reflag t.mem p j
      have hshape := hflagged.sameShape
      obtain ⟨w, t', hchild, hw⟩ := ih hvis.sound hlen'
        (fun k hk => hidx k (List.mem_cons_of_mem _ hk))
        (hvis.table (level + 1) (by omega) _ hnext) (by omega)
        (by rw [FlatState.set_mem, hshape.leafSlot]; exact hslot)
        (fun k hk => (hshape q (i + k)).1.trans (habs k hk))
      have hne : ptePaddr (ptePaddr (t.mem p j)) ≠ tmpPaddr := by
        rw [ptePaddr_ptePaddr]
        intro heq
        exact h.avoids (level + 1) (by omega) (heq ▸ hnext)
      have hread : (bare tmpPaddr).read p j t = .ok (t.mem p j, t) := rfl
      have hopen : (bare tmpPaddr).mapPageTmp (ptePaddr (t.mem p j)) vmFlagWritable t =
          .ok (ptePaddr (t.mem p j), t) := by
        show (if _ then _ else _ : Prog Fault FlatState PAddr) t = _
        rw [if_neg hne, ptePaddr_ptePaddr]
        rfl
      have hupdate : updatePtPteFlags (bare tmpPaddr) p j flags t =
          .ok ((), t.set p j (reflag (t.mem p j) flags)) := rfl
      have hround : mapInner (bare tmpPaddr) (recurseMap (bare tmpPaddr) flags height path) flags p
          { i := j, paddr, pages } t =
          .ok (.next { i := j + 1, paddr := w.paddr, pages := w.pages }, t') := by
        rw [mapInner, if_pos ⟨hj, hpages⟩, bind_eq_of_ok hread]
        show ((if present (t.mem p j) = true then _ else _) >>= _ : Prog Fault FlatState _) t = _
        rw [if_pos (show present (t.mem p j) = true from hpres), bind_eq_of_ok hopen,
          bind_eq_of_ok hupdate]
        refine (bind_eq_of_ok hchild _).trans ?_
        rfl
      -- nothing is left for the next round
      have hlast : mapInner (bare tmpPaddr) (recurseMap (bare tmpPaddr) flags height path) flags p
          { i := j + 1, paddr := w.paddr, pages := w.pages } t' =
          .ok (.done (success, { i := j + 1, paddr := w.paddr, pages := w.pages }), t') := by
        rw [mapInner, if_neg (by rintro ⟨-, hpos⟩; exact hpos.ne' hw)]
        rfl
      refine ⟨{ i := j + 1, paddr := w.paddr, pages := w.pages }, t', ?_, hw⟩
      rw [recurseMap]
      exact (rounds_of_next hround 511).trans (rounds_of_done hlast 510)
    next => cases hslot

/-! ## The call -/

section Call

variable {t t' : FlatState} {found : ℕ} {status : Status}

/-- A search that finds nothing ends the call. -/
theorem bare_refused (hpaddr : paddrStart.toNat % pageSize = 0)
    (hhint : vaddrHint % pageSize = 0) (hpages : 0 < pages)
    (hfind : findSpace (flat tmpPaddr) fuel paddrStart pages flags 3 (indices vaddrHint) root t =
      .ok ((status, index), t)) (herr : isError status = true) :
    vmMapPages (bare tmpPaddr) fuel root paddrStart pages vaddrHint flags t =
      .ok ((status, vaddrHint), t) := by
  have hsearch : findSpace (bare tmpPaddr) fuel paddrStart pages flags 3 (indices vaddrHint) root
      t = .ok ((status, index), t) := by
    rw [bare, findSpace_withMemSet]
    exact hfind
  rw [vmMapPages, check, if_pos (decide_eq_true hpaddr), check, if_pos (decide_eq_true hhint),
    check, if_pos (decide_eq_true hpages), pure_bind, pure_bind, pure_bind, bind_eq_of_ok hsearch]
  show (if isError status = true then _ else _ : Prog Fault FlatState _) t = _
  rw [if_pos herr]
  rfl

/-- After a search that finds space the call returns what `recurse_map` returns. -/
theorem bare_placed (h : Sound tmpPaddr root t) (hpaddr : paddrStart.toNat % pageSize = 0)
    (hhint : vaddrHint % pageSize = 0) (hpages : 0 < pages)
    (hfind : findSpace (flat tmpPaddr) fuel paddrStart pages flags 3 (indices vaddrHint) root t =
      .ok (((found : ℤ), index), t)) :
    vmMapPages (bare tmpPaddr) fuel root paddrStart pages vaddrHint flags t ≠ .error strayed ∧
      ∀ r t', vmMapPages (bare tmpPaddr) fuel root paddrStart pages vaddrHint flags t =
          .ok (r, t') ↔ r = (success, hintOf vaddrHint index) ∧
        ∃ w, recurseMap (bare tmpPaddr) flags 3 index root paddrStart pages t = .ok (w, t') := by
  have hsearch : findSpace (bare tmpPaddr) fuel paddrStart pages flags 3 (indices vaddrHint) root
      t = .ok (((found : ℤ), index), t) := by
    rw [bare, findSpace_withMemSet]
    exact hfind
  have hcall : vmMapPages (bare tmpPaddr) fuel root paddrStart pages vaddrHint flags t =
      (do
        let r ← recurseMap (bare tmpPaddr) flags 3 index root paddrStart pages
        if isError r.1 then return (r.1, vaddrHint)
        else return (r.1, hintOf vaddrHint index) : Prog Fault FlatState (Status × ℕ)) t := by
    rw [vmMapPages, check, if_pos (decide_eq_true hpaddr), check, if_pos (decide_eq_true hhint),
      check, if_pos (decide_eq_true hpages), pure_bind, pure_bind, pure_bind,
      bind_eq_of_ok hsearch]
    show (if isError (found : ℤ) = true then _ else _ : Prog Fault FlatState _) t = _
    rw [isError_natCast, if_neg Bool.false_ne_true]
  have hsafe : Safe strayed (Steady tmpPaddr root t)
      (recurseMap (bare tmpPaddr) flags 3 index root paddrStart pages)
      fun r t' => r.1 = success ∧ Steady tmpPaddr root t t' :=
    safe_recurseMap 3 le_rfl index root paddrStart pages .root
  rw [hcall]
  cases hran : recurseMap (bare tmpPaddr) flags 3 index root paddrStart pages t with
  | error f =>
    rw [bind_eq_error hran]
    constructor
    · intro hstray
      cases hstray
      exact hsafe.safe t (Steady.refl h) hran
    · intro r t'
      constructor
      · intro hok
        cases hok
      · rintro ⟨-, w, hw⟩
        cases hw
  | ok x =>
    obtain ⟨⟨res, w⟩, t₁⟩ := x
    obtain ⟨hres, -⟩ := hsafe.run t (Steady.refl h) _ _ hran
    replace hres : res = success := hres
    subst hres
    rw [bind_eq_of_ok hran]
    constructor
    · intro hstray
      cases hstray
    · intro r t'
      constructor
      · intro hok
        cases hok
        exact ⟨rfl, _, rfl⟩
      · rintro ⟨rfl, w', hw⟩
        cases hw
        rfl

variable {s : VmState} {r : Status × ℕ}

/-- **What making a table means for a call.**  With no table in the window, `vm_map_pages` of the
source returns what it returns where no tables are made. -/
theorem call_source_iff (hwin : WindowOk s.tmpPt s.firstFreeTmpIndex)
    (hclosed : ∀ i < 511, present (s.tmpPt i) = false) (hroot : root ≠ tmpPaddr)
    (hstray : vmMapPages (bare tmpPaddr) fuel root paddrStart pages vaddrHint flags s.flat ≠
      .error strayed) :
    (∃ s', call root (vmMapPages (source tmpPaddr) fuel (.table root) paddrStart pages vaddrHint
        flags) s = .ok (r, s')) ↔
      ∃ t, vmMapPages (bare tmpPaddr) fuel root paddrStart pages vaddrHint flags s.flat =
        .ok (r, t) := by
  have hroom : Room 3 s.tmpPt := by
    rw [Room, Finset.filter_true_of_mem fun i hi => hclosed i (Finset.mem_range.mp hi),
      Finset.card_range]
    decide
  have hsame : Window.Same tmpPaddr True s.tmpPt s.firstFreeTmpIndex []
      (vmMapPages (source tmpPaddr) fuel (.table root) paddrStart pages vaddrHint flags)
      (vmMapPages (bare tmpPaddr) fuel root paddrStart pages vaddrHint flags) :=
    makesSame_source.sim_vmMapPages ⟨hwin, fun _ => hroom⟩ (vacant_of_closed hwin hclosed)
      ⟨hroot, rfl⟩ ..
  constructor
  · rintro ⟨s', hok⟩
    rcases hsame.back _ _ (rel_call s root) r s' hok with ⟨_, t, hbare, rfl, -⟩ | ⟨hbare, -⟩
    · exact ⟨t, hbare⟩
    · exact absurd hbare hstray
  · rintro ⟨t, hbare⟩
    obtain ⟨_, s', hok, rfl, -⟩ := hsame.forth trivial _ _ (rel_call s root) r t hbare
    exact ⟨s', hok⟩

end Call

end Mimik.Vm
