/-
# The array of ACPI tables

Two properties of `acpi_init`.  The array of the tables has the right size when the root
table is not shorter than its header and lists at most five tables, or so many that
`mm_alloc` refuses the request (`tables_sized_iff`).  After an error in the loop over the
entries the array always holds a pointer that `map_table` has left without mapping a
table: the pointer doubles as the hint of the search (`noDangling_iff`).
-/
import Mimik.Acpi
import Mimik.SlabSafety

namespace Mimik.Acpi

open FaultState Vm

/-! ## The size of the array -/

section Sized

variable {σ π : Type} {M : Machine σ π} {fuel layoutVaddrEnd : ℕ} {kpml4 : π}
  {view : σ → ByteMemory} {env : SlabHeap.HeapEnv} {grown : σ → σ} {desc : ByteMemory}
  {sdtAddress revision shift length : ℕ} {known : String} {v w : AcpiVars} {s s' : σ}
  {res : Status}

/-- The root table is sized right: the number of the entries is that of the whole entries
behind the header, all of them lie in the table, and the block for the pointers to them and
a NULL pointer is large enough, in every heap in which `mm_alloc` returns one. -/
structure SizedRight (shift length : ℕ) : Prop where
  count : nTbls shift length = (length - sizeofSdtHeader) / 2 ^ shift
  inside : ∀ i < nTbls shift length, sizeofSdtHeader + i * 2 ^ shift + 2 ^ shift ≤ length
  block : ∀ env es r, GuardedRun.Run (SlabHeap.HeapRun.step env) SlabHeap.clientOk .init es r →
    ∀ p h, SlabHeap.mmAlloc env r.heap (tblsSz (nTbls shift length)) = .ok (p, h) →
      ∃ type, SlabHeap.getSlabFromSize (tblsSz (nTbls shift length)) = .ok type ∧
        8 * (nTbls shift length + 1) ≤ SlabHeap.slabSize type

/-- The number of the entries of a table that is not shorter than its header. -/
theorem nTbls_eq (h : sizeofSdtHeader ≤ length) :
    nTbls shift length = (length - sizeofSdtHeader) / 2 ^ shift := by
  rw [nTbls, sub64, if_neg (not_lt.mpr h), Nat.shiftRight_eq_div_pow]

/-- The number wraps around for a table that is shorter. -/
theorem le_nTbls (h : length < sizeofSdtHeader) (hshift : shift ≤ 3) :
    2 ^ 60 ≤ nTbls shift length := by
  rw [sizeofSdtHeader] at h
  have hpow : 2 ^ shift ≤ 2 ^ 3 := Nat.pow_le_pow_right (by omega) hshift
  rw [nTbls, sub64, sizeofSdtHeader, if_pos h, Nat.shiftRight_eq_div_pow,
    Nat.le_div_iff_mul_le (Nat.two_pow_pos shift)]
  calc 2 ^ 60 * 2 ^ shift ≤ 2 ^ 60 * 2 ^ 3 := Nat.mul_le_mul_left _ hpow
    _ ≤ length + 2 ^ 64 - 36 := by omega

theorem sizedRight_iff (hlength : length < 2 ^ 32) (hshift : shift ≤ 3) :
    SizedRight shift length ↔ sizeofSdtHeader ≤ length ∧
      ((length - sizeofSdtHeader) / 2 ^ shift ≤ 5 ∨
        511 ≤ (length - sizeofSdtHeader) / 2 ^ shift) := by
  have hle : (length - sizeofSdtHeader) / 2 ^ shift ≤ length :=
    (Nat.div_le_self _ _).trans (Nat.sub_le _ _)
  have hsz : tblsSz ((length - sizeofSdtHeader) / 2 ^ shift) =
      8 * ((length - sizeofSdtHeader) / 2 ^ shift + 1) := by
    have hinner : wrap64 ((length - sizeofSdtHeader) / 2 ^ shift + 1) =
        (length - sizeofSdtHeader) / 2 ^ shift + 1 := wrap64_of_lt (by omega)
    rw [tblsSz, hinner, wrap64_of_lt (by omega)]
  constructor
  · intro h
    have hlong : sizeofSdtHeader ≤ length := by
      by_contra hshort
      have hcount := h.count
      have hwrap := le_nTbls (not_le.mp hshort) hshift
      omega
    refine ⟨hlong, ?_⟩
    by_contra hmany
    have hblock := h.block
    rw [nTbls_eq hlong, hsz] at hblock
    have hlarge : 48 < 8 * ((length - sizeofSdtHeader) / 2 ^ shift + 1) := by omega
    obtain ⟨type, p, heap, halloc, hclass, hsmall⟩ :=
      SlabHeap.chunk_too_small hlarge (by omega)
    obtain ⟨type', hclass', hfits⟩ := hblock SlabHeap.openEnv [] .init (.nil _) p heap halloc
    rw [hclass, Except.ok.injEq] at hclass'
    subst hclass'
    omega
  · rintro ⟨hlong, hsmall⟩
    refine ⟨nTbls_eq hlong, fun i hi => ?_, fun env _ r _ p heap halloc => ?_⟩
    · rw [nTbls_eq hlong] at hi
      have hmul : (i + 1) * 2 ^ shift ≤ length - sizeofSdtHeader :=
        (Nat.mul_le_mul_right _ hi).trans (Nat.div_mul_le_self _ _)
      rw [Nat.add_mul, Nat.one_mul] at hmul
      omega
    · rw [nTbls_eq hlong, hsz] at halloc ⊢
      obtain ⟨hlt, type, -, hclass, -, -⟩ := SlabHeap.mmAlloc_eq_ok halloc
      exact ⟨type, hclass, SlabHeap.le_slabSize_of_le_48 (by omega) hclass⟩

/-- **When ACPI root tables are sized right.**  When the descriptor is accepted and the
signature and the checksum of the root table are right, the tables are sized by its length,
and they are sized right if and only if the table is not shorter than its header and the
number of its entries is at most 5, or at least 511, which `mm_alloc` refuses. -/
theorem tables_sized_iff
    (hkind : (sdtAddress = desc.load 16 4 ∧ revision = 0 ∧ known = "RSDT" ∧ shift = 2) ∨
      (sdtAddress = desc.load 24 8 ∧ revision = 2 ∧ known = "XSDT" ∧ shift = 3))
    (hgeneric : acpiInitGeneric M fuel layoutVaddrEnd kpml4 view desc sdtAddress revision v s =
      .ok ((res, w), s')) (hres : isError res = false)
    (hsignature : tableSignature (view s') w.root known = .ok true)
    (hchecksum : checksumMatches (view s') w.root (tableLength (view s') w.root) = true) :
    acpiInitRoot M fuel layoutVaddrEnd kpml4 view env grown desc sdtAddress revision known shift
        v s = mapRootTable M fuel layoutVaddrEnd kpml4 view env grown shift w s' ∧
      (SizedRight shift (tableLength (view s') w.root) ↔
        sizeofSdtHeader ≤ tableLength (view s') w.root ∧
          ((tableLength (view s') w.root - sizeofSdtHeader) / 2 ^ shift ≤ 5 ∨
            511 ≤ (tableLength (view s') w.root - sizeofSdtHeader) / 2 ^ shift)) := by
  constructor
  · rw [acpiInitRoot, bind_eq_of_ok hgeneric]
    show (if isError res = true then _ else _ : Prog Fault σ (Status × AcpiVars)) s' = _
    have hrun : run view (fun m => tableSignature m w.root known) s' = .ok (true, s') := by
      rw [run, hsignature]
    rw [hres, if_neg Bool.false_ne_true, bind_eq_of_ok hrun]
    have hlook : look view (fun m => checksumMatches m w.root (tableLength m w.root)) s' =
        .ok (true, s') := by
      rw [look, hchecksum]
    show (look view _ >>= _ : Prog Fault σ (Status × AcpiVars)) s' = _
    rw [bind_eq_of_ok hlook]
    rfl
  · refine sizedRight_iff (ByteMemory.load_lt _ _ 4) ?_
    rcases hkind with ⟨-, -, -, rfl⟩ | ⟨-, -, -, rfl⟩
    · omega
    · omega

end Sized

/-! ## Pointers that are left behind -/

section Dangling

variable {σ π : Type} {M : Machine σ π} {fuel layoutVaddrEnd : ℕ} {kpml4 : π}
  {view : σ → ByteMemory} {env : SlabHeap.HeapEnv} {grown : σ → σ} {desc : ByteMemory}
  {v w : AcpiVars} {s s' : σ} {res : Status}

/-- Every pointer of the array before the first NULL pointer is the result of a call of
`map_table` that has returned `SUCCESS`. -/
def NoDangling (v : AcpiVars) : Prop :=
  v.tbls ≠ 0 → ∀ k, (∀ j ≤ k, v.entries j ≠ 0) → (k, v.entries k) ∈ v.mapped

/-- The address that `vm_map_pages` puts together from a hint in the kernel is not NULL. -/
theorem hintOf_ne_zero {hint : ℕ} (hk : isKvaddr hint = true) (hlt : hint < 2 ^ 64)
    (index : List ℕ) : hintOf hint index ≠ 0 ∧ hintOf hint index < 2 ^ 64 := by
  have hlow : layoutHeapStart ≤ hint := of_decide_eq_true hk
  rw [layoutHeapStart] at hlow
  -- the sign extension is all ones, with or without the bit that asks for it
  have hhigh : (if (index.getD 0 0).testBit 8 then 0xffff else hint >>> 48 % 2 ^ 16) = 0xffff := by
    rw [Nat.shiftRight_eq_div_pow]
    split
    · rfl
    · omega
  have hmod : ∀ i, i % 512 < 512 := fun i => Nat.mod_lt i (by omega)
  have h0 := hmod (index.getD 0 0)
  have h1 := hmod (index.getD 1 0)
  have h2 := hmod (index.getD 2 0)
  have h3 := hmod (index.getD 3 0)
  have hoff : hint % pageSize < 4096 := Nat.mod_lt hint (by decide)
  show (if (index.getD 0 0).testBit 8 then 0xffff else hint >>> 48 % 2 ^ 16) <<< 48 + _ +
    _ + _ + _ +
    _ ≠ 0 ∧ (if (index.getD 0 0).testBit 8 then 0xffff else hint >>> 48 % 2 ^ 16) <<< 48 +
      _ + _ + _ +
    _ + _ < _
  rw [hhigh]
  simp only [Nat.shiftLeft_eq]
  omega

/-- A value in `*vaddr_hint` that is neither NULL nor more than a word. -/
def Hint (a : ℕ) : Prop := a ≠ 0 ∧ a < 2 ^ 64

/-- `vm_map_pages` leaves the hint, or an address put together from it. -/
theorem vmMapPages_hint {table : π} {paddr : PAddr} {pages hint : ℕ} {flags : Flags}
    (hk : isKvaddr hint = true) (hlt : hint < 2 ^ 64) :
    Triple (fun _ => True) (vmMapPages M fuel table paddr pages hint flags) fun r _ =>
      Hint r.2 := by
  have hleft : Hint hint := by
    refine ⟨?_, hlt⟩
    rintro rfl
    exact absurd hk (by decide)
  have hcheck : ∀ x expr, Triple (fun _ => True) (check x expr : Prog Fault σ Unit)
      fun _ _ => True := by
    intro x expr
    apply Triple.ite
    · exact fun _ => Triple.pure fun _ _ => trivial
    · exact fun _ => Triple.fault _
  apply Triple.bind (hcheck _ _)
  intro _
  apply Triple.bind (hcheck _ _)
  intro _
  apply Triple.bind (hcheck _ _)
  intro _
  apply Triple.bind (Q := fun _ _ => True) ⟨fun _ _ _ _ _ => trivial⟩
  rintro ⟨found, index⟩
  apply Triple.ite
  · exact fun _ => Triple.pure fun _ _ => hleft
  · intro _
    apply Triple.bind (Q := fun _ _ => True) ⟨fun _ _ _ _ _ => trivial⟩
    rintro ⟨res, u⟩
    apply Triple.ite
    · exact fun _ => Triple.pure fun _ _ => hleft
    · exact fun _ => Triple.pure fun _ _ => hintOf_ne_zero hk hlt index

/-- `vmk_map_bytes` leaves an address in the hint, whatever it returns: without a hint, the
search starts behind the kernel. -/
theorem vmkMapBytes_hint (hend : isKvaddr layoutVaddrEnd = true) (hlt : layoutVaddrEnd < 2 ^ 64)
    {paddr : PAddr} {bytes hint : ℕ} {flags : Flags} (hhint : hint < 2 ^ 64) :
    Triple (fun _ => True) (vmkMapBytes M fuel layoutVaddrEnd kpml4 paddr bytes hint flags)
      fun r _ => Hint r.2 := by
  -- the hint that the search is given
  have hkernel : Triple (fun _ => True) (kernelHint layoutVaddrEnd hint : Prog Fault σ ℕ)
      fun a _ => isKvaddr a = true ∧ a < 2 ^ 64 := by
    apply Triple.ite
    · exact fun _ => Triple.pure fun _ _ => ⟨hend, hlt⟩
    · intro _
      apply Triple.bind (Q := fun _ _ => isKvaddr hint = true)
      · apply Triple.ite
        · exact fun hk => Triple.pure fun _ _ => hk
        · exact fun _ => Triple.fault _
      · exact fun _ => Triple.pure fun _ hk => ⟨hk, hhint⟩
  apply Triple.bind (Q := fun _ _ => True) ⟨fun _ _ _ _ _ => trivial⟩
  intro _
  apply Triple.bind hkernel
  intro a
  apply Triple.of_start
  rintro s ⟨hk, ha⟩
  have hdown : isKvaddr (pageAlignDown a) = true := by
    have hlow : layoutHeapStart ≤ a := of_decide_eq_true hk
    rw [layoutHeapStart] at hlow
    rw [isKvaddr, decide_eq_true_eq, pageAlignDown, layoutHeapStart, pageSize]
    omega
  have hdownlt : pageAlignDown a < 2 ^ 64 := (Nat.div_mul_le_self a pageSize).trans_lt ha
  apply Triple.bind ((vmMapPages_hint hdown hdownlt).mono (fun _ _ => trivial) fun _ _ h => h)
  rintro ⟨res, u⟩
  apply Triple.pure
  rintro _ ⟨hne, hu⟩
  have hoff : pageOffset paddr.toNat < 2 ^ 64 := (Nat.mod_lt _ (by decide)).trans (by decide)
  refine ⟨fun hzero => hne ?_, Nat.or_lt_two_pow hu hoff⟩
  exact Nat.le_zero.mp (hzero ▸ Nat.left_le_or)

/-- `map_table` leaves an address in `*out`, whatever it returns. -/
theorem mapTable_out (hend : isKvaddr layoutVaddrEnd = true) (hlt : layoutVaddrEnd < 2 ^ 64)
    {paddr out : ℕ} (hout : out < 2 ^ 64) :
    Triple (fun _ => True) (mapTable M fuel layoutVaddrEnd kpml4 view paddr out)
      fun r _ => Hint r.2 := by
  apply Triple.bind (vmkMapBytes_hint hend hlt hout)
  rintro ⟨res, a⟩
  apply Triple.ite
  · exact fun _ => Triple.pure fun _ h => h
  · intro _
    apply Triple.bind (Q := fun _ _ => Hint a) (Triple.of_apply _ id (fun _ => rfl) fun _ h => h)
    intro length
    apply Triple.ite
    · intro _
      apply Triple.of_start
      rintro s ⟨-, ha⟩
      apply Triple.bind ((vmkMapBytes_hint hend hlt ha).mono (fun _ _ => trivial) fun _ _ h => h)
      rintro ⟨res, b⟩
      apply Triple.ite
      · exact fun _ => Triple.pure fun _ h => h
      · exact fun _ => Triple.pure fun _ h => h
    · exact fun _ => Triple.pure fun _ h => h

/-- An entry of the array that `map_table` has left with an error, behind entries that are
not NULL. -/
def Dangles (v : AcpiVars) : Prop :=
  ∃ k, (∀ j ≤ k, v.entries j ≠ 0) ∧ ∀ x ∈ v.mapped, x.1 ≠ k

/-- The array while the entries are mapped: the first `i` are, and the others are NULL. -/
structure Filling (v : AcpiVars) (i : ℕ) : Prop where
  done : ∀ j < i, v.entries j ≠ 0
  rest : ∀ j, i ≤ j → v.entries j = 0
  mapped : ∀ x ∈ v.mapped, x.1 < i

/-- **The loop over the entries** either maps them all or leaves an entry that dangles. -/
theorem mapEntries_dangles (hend : isKvaddr layoutVaddrEnd = true) (hlt : layoutVaddrEnd < 2 ^ 64)
    {shift n i : ℕ} (hfilling : Filling v i) :
    Triple (fun _ => True) (mapEntries M fuel layoutVaddrEnd kpml4 view shift n i v)
      fun r _ => r.2.tbls = v.tbls ∧ (isError r.1 = true → Dangles r.2) := by
  induction n generalizing i v with
  | zero => exact Triple.pure fun _ _ => ⟨rfl, fun hcontra => absurd hcontra Bool.false_ne_true⟩
  | succ n ih =>
    apply Triple.bind (Q := fun _ _ => True) ⟨fun _ _ _ _ _ => trivial⟩
    intro paddr
    have hnull : v.entries i < 2 ^ 64 := by
      rw [hfilling.rest i le_rfl]
      exact Nat.two_pow_pos 64
    apply Triple.bind (mapTable_out hend hlt hnull)
    rintro ⟨res, out⟩
    have hdone : out ≠ 0 → ∀ j ≤ i, Function.update v.entries i out j ≠ 0 := by
      intro hne j hj
      rcases hj.lt_or_eq with hj | rfl
      · rw [Function.update_of_ne hj.ne]
        exact hfilling.done j hj
      · rwa [Function.update_self]
    apply Triple.ite
    · intro _
      apply Triple.pure
      rintro _ ⟨hne, -⟩
      exact ⟨rfl, fun _ => ⟨i, hdone hne, fun x hx => (hfilling.mapped x hx).ne⟩⟩
    · intro _
      apply Triple.of_start
      rintro s ⟨hne, -⟩
      refine (ih (v := { v with
        entries := Function.update v.entries i out, mapped := (i, out) :: v.mapped })
        ⟨fun j hj => hdone hne j (by omega), fun j hj => ?_, fun x hx => ?_⟩).mono
        (fun _ _ => trivial) fun _ _ h => h
      · show Function.update v.entries i out j = 0
        rw [Function.update_of_ne (by omega)]
        exact hfilling.rest j (by omega)
      · rcases List.mem_cons.mp hx with rfl | hx
        · exact Nat.lt_succ_self i
        · exact Nat.lt_succ_of_lt (hfilling.mapped x hx)

/-- The rest of `acpi_init_rsdp` and `acpi_init_xsdp` sets `tbls`, and an error leaves an
entry that dangles. -/
theorem mapRootTable_dangles (hend : isKvaddr layoutVaddrEnd = true)
    (hlt : layoutVaddrEnd < 2 ^ 64) {shift : ℕ} (hmapped : v.mapped = []) :
    Triple (fun _ => True) (mapRootTable M fuel layoutVaddrEnd kpml4 view env grown shift v)
      fun r _ => r.2.tbls ≠ 0 ∧ (isError r.1 = true → Dangles r.2) := by
  apply Triple.bind (Q := fun _ _ => True) ⟨fun _ _ _ _ _ => trivial⟩
  intro length
  apply Triple.bind (Q := fun r _ => r.2.mapped = [])
  · constructor
    rintro s - ⟨p, u⟩ s' hok
    rw [mmAlloc] at hok
    split at hok
    next =>
      cases hok
      exact hmapped
    next => cases hok
  rintro ⟨p, u⟩
  apply Triple.bind (Q := fun _ _ => u.mapped = [] ∧ p ≠ 0)
  · apply Triple.ite
    · exact fun hp => Triple.pure fun _ hu => ⟨hu, bne_iff_ne.mp hp⟩
    · exact fun _ => Triple.fault _
  intro _
  apply Triple.of_start
  rintro s ⟨hu, hp⟩
  refine (mapEntries_dangles (v := { u with tbls := p, entries := fun _ => 0 }) hend hlt
    ⟨fun j hj => absurd hj (Nat.not_lt_zero j), fun _ _ => rfl, fun x hx => ?_⟩).mono
    (fun _ _ => trivial) ?_
  · replace hx : x ∈ u.mapped := hx
    rw [hu] at hx
    exact absurd hx List.not_mem_nil
  · rintro ⟨res, u'⟩ _ ⟨htbls, hdangles⟩
    exact ⟨by rw [htbls]; exact hp, hdangles⟩

/-- `acpi_init_generic` changes nothing but the pointer to the root table. -/
theorem acpiInitGeneric_keeps {sdtAddress revision : ℕ} :
    Triple (fun _ => True)
      (acpiInitGeneric M fuel layoutVaddrEnd kpml4 view desc sdtAddress revision v)
      fun r _ => r.2.tbls = v.tbls ∧ r.2.mapped = v.mapped := by
  apply Triple.ite
  · exact fun _ => Triple.pure fun _ _ => ⟨rfl, rfl⟩
  intro _
  apply Triple.ite
  · exact fun _ => Triple.pure fun _ _ => ⟨rfl, rfl⟩
  intro _
  apply Triple.ite
  · exact fun _ => Triple.pure fun _ _ => ⟨rfl, rfl⟩
  intro _
  apply Triple.bind (Q := fun _ _ => True) ⟨fun _ _ _ _ _ => trivial⟩
  rintro ⟨res, root⟩
  apply Triple.ite
  · exact fun _ => Triple.pure fun _ _ => ⟨rfl, rfl⟩
  · exact fun _ => Triple.pure fun _ _ => ⟨rfl, rfl⟩

/-- From a state in which there is no array, an error either comes before the array or leaves
an entry that dangles. -/
theorem acpiInitRoot_dangles (hend : isKvaddr layoutVaddrEnd = true)
    (hlt : layoutVaddrEnd < 2 ^ 64) {sdtAddress revision shift : ℕ} {known : String}
    (htbls : v.tbls = 0) (hmapped : v.mapped = []) :
    Triple (fun _ => True)
      (acpiInitRoot M fuel layoutVaddrEnd kpml4 view env grown desc sdtAddress revision known
        shift v)
      fun r _ => isError r.1 = true → r.2.tbls = 0 ∨ r.2.tbls ≠ 0 ∧ Dangles r.2 := by
  apply Triple.bind acpiInitGeneric_keeps
  rintro ⟨res, u⟩
  apply Triple.of_start
  rintro s ⟨hu, hu'⟩
  rw [htbls] at hu
  rw [hmapped] at hu'
  apply Triple.ite
  · exact fun _ => Triple.pure fun _ _ _ => .inl hu
  intro _
  apply Triple.bind (Q := fun _ _ => True) ⟨fun _ _ _ _ _ => trivial⟩
  intro signature
  apply Triple.ite
  · exact fun _ => Triple.pure fun _ _ _ => .inl hu
  intro _
  apply Triple.bind (Q := fun _ _ => True) ⟨fun _ _ _ _ _ => trivial⟩
  intro checksum
  apply Triple.ite
  · exact fun _ => Triple.pure fun _ _ _ => .inl hu
  · intro _
    exact (mapRootTable_dangles hend hlt hu').mono (fun _ _ => trivial)
      fun _ _ h herr => .inr ⟨h.1, h.2 herr⟩

/-- **A failed initialisation leaves a dangling pointer**, whenever the mapping of an entry
fails: after an error no pointer dangles exactly when there is no array, because the error has
come before the entries. -/
theorem noDangling_iff (hend : isKvaddr layoutVaddrEnd = true) (hlt : layoutVaddrEnd < 2 ^ 64)
    {type : AcpiType} {heap : SlabHeap.Heap}
    (hok : acpiInit M fuel layoutVaddrEnd kpml4 view env grown type desc (.init heap) s =
      .ok ((res, v), s')) (herr : isError res = true) : NoDangling v ↔ v.tbls = 0 := by
  have hfail : Triple (fun _ => True)
      (acpiInit M fuel layoutVaddrEnd kpml4 view env grown type desc (.init heap))
      fun r _ => isError r.1 = true → r.2.tbls = 0 ∨ r.2.tbls ≠ 0 ∧ Dangles r.2 := by
    apply Triple.bind
      (Q := fun r _ => isError r.1 = true → r.2.tbls = 0 ∨ r.2.tbls ≠ 0 ∧ Dangles r.2)
    · cases type with
      | none => exact Triple.pure fun _ _ _ => .inl rfl
      | rsdp => exact acpiInitRoot_dangles hend hlt rfl rfl
      | xsdp => exact acpiInitRoot_dangles hend hlt rfl rfl
    rintro ⟨res, u⟩
    apply Triple.ite
    · exact fun _ => Triple.pure fun _ h => h
    · intro _
      apply Triple.bind (Q := fun _ _ => True) ⟨fun _ _ _ _ _ => trivial⟩
      intro _
      apply Triple.bind (Q := fun _ _ => True) ⟨fun _ _ _ _ _ => trivial⟩
      exact fun _ => Triple.pure fun _ _ hcontra => absurd hcontra Bool.false_ne_true
  rcases hfail.run s trivial _ _ hok herr with hnull | ⟨htbls, k, hdone, hmapped⟩
  · exact ⟨fun _ => hnull, fun _ hne => absurd hnull hne⟩
  · refine ⟨fun h => ?_, fun hnull => absurd hnull htbls⟩
    exact absurd rfl (hmapped _ (h htbls k hdone))

end Dangling

/-! ## A firmware with one root table

The kernel ends so near the end of a page directory that one page is free behind it. -/

/-- The descriptor, with the physical address of the root table. -/
def smallDesc : ByteMemory := fun i =>
  if i < 8 then (chars "RSD PTR ").getD i 0
  else if i = 8 then 209
  else if i = 18 then 16
  else 0

/-- A root table with this length, this checksum byte and one byte of its first entry. -/
def rootTable (length checksum entry : BitVec 8) : ByteMemory := fun i =>
  if i < 4 then (chars "RSDT").getD i 0
  else if i = 4 then length
  else if i = 9 then checksum
  else if i = 38 then entry
  else 0

/-- Memory with the table in the free page. -/
def rootMemory (table : ByteMemory) : ByteMemory := fun a => table (a - 0xffffffffbffff000)

/-- What the processor reads. -/
def rootView (table : ByteMemory) : VmState → ByteMemory := fun _ => rootMemory table

/-- The page tables. -/
def lastPage : VmState where
  mem := fun p i =>
    if p = 0x1000#64 ∧ i = 511 then setPte 0x2000#64 vmFlagWritable
    else if p = 0x2000#64 ∧ i = 510 then setPte 0x3000#64 vmFlagWritable
    else if p = 0x3000#64 ∧ i = 511 then setPte 0x4000#64 vmFlagWritable
    else 0#64
  tmpPt := fun i => if i = 511 then setPte 0x8000#64 vmFlagWritable else 0#64
  firstFreeTmpIndex := 0
  frames := []
  tlb := []
  opened := []

/-- A root table with one entry is sized right. -/
theorem tables_sized_small :
    ∃ w s', acpiInitGeneric (kernel 0x8000#64) 2 0xffffffffbffff000 (.table 0x1000#64)
        (rootView (rootTable 40 123 32)) smallDesc (smallDesc.load 16 4) 0
        (.init SlabHeap.mmInit) lastPage = .ok ((success, w), s') ∧
      SizedRight 2 (tableLength (rootView (rootTable 40 123 32) s') w.root) := by
  have hrun : (acpiInitGeneric (kernel 0x8000#64) 2 0xffffffffbffff000 (.table 0x1000#64)
      (rootView (rootTable 40 123 32)) smallDesc (smallDesc.load 16 4) 0
      (.init SlabHeap.mmInit) lastPage).toOption.any
      (fun x => decide (x.1.1 = success ∧ x.1.2.root = 0xffffffffbffff000)) = true := by
    decide +kernel
  obtain ⟨⟨⟨res, w⟩, s'⟩, hok, htest⟩ := Except.exists_of_any hrun
  obtain ⟨rfl, hroot⟩ : res = success ∧ w.root = 0xffffffffbffff000 := of_decide_eq_true htest
  have hlength : tableLength (rootMemory (rootTable 40 123 32)) w.root = 40 := by
    rw [hroot]
    decide
  have hsignature : tableSignature (rootMemory (rootTable 40 123 32)) w.root "RSDT" = .ok true := by
    rw [hroot]
    decide
  have hchecksum : checksumMatches (rootMemory (rootTable 40 123 32)) w.root
      (tableLength (rootMemory (rootTable 40 123 32)) w.root) = true := by
    rw [hlength, hroot]
    decide
  refine ⟨w, s', hok, ?_⟩
  obtain ⟨-, hsized⟩ : acpiInitRoot (kernel 0x8000#64) 2 0xffffffffbffff000 (.table 0x1000#64)
      (rootView (rootTable 40 123 32)) SlabHeap.openEnv id smallDesc
      (smallDesc.load 16 4) 0 "RSDT" 2
      (.init SlabHeap.mmInit) lastPage = _ ∧ _ :=
    tables_sized_iff (.inl ⟨rfl, rfl, rfl, rfl⟩) hok rfl hsignature hchecksum
  replace hlength : tableLength (rootView (rootTable 40 123 32) s') w.root = 40 := hlength
  rw [hsized, hlength]
  decide

/-- A root table with six entries is accepted, but the block for the seven pointers has room
for six. -/
theorem not_tables_sized_six :
    ∃ w s', acpiInitGeneric (kernel 0x8000#64) 2 0xffffffffbffff000 (.table 0x1000#64)
        (rootView (rootTable 60 135 0)) smallDesc (smallDesc.load 16 4) 0
        (.init SlabHeap.mmInit) lastPage = .ok ((success, w), s') ∧
      tableSignature (rootView (rootTable 60 135 0) s') w.root "RSDT" = .ok true ∧
      checksumMatches (rootView (rootTable 60 135 0) s') w.root
        (tableLength (rootView (rootTable 60 135 0) s') w.root) = true ∧
      ¬ SizedRight 2 (tableLength (rootView (rootTable 60 135 0) s') w.root) := by
  have hrun : (acpiInitGeneric (kernel 0x8000#64) 2 0xffffffffbffff000 (.table 0x1000#64)
      (rootView (rootTable 60 135 0)) smallDesc (smallDesc.load 16 4) 0
      (.init SlabHeap.mmInit) lastPage).toOption.any
      (fun x => decide (x.1.1 = success ∧ x.1.2.root = 0xffffffffbffff000)) = true := by
    decide +kernel
  obtain ⟨⟨⟨res, w⟩, s'⟩, hok, htest⟩ := Except.exists_of_any hrun
  obtain ⟨rfl, hroot⟩ : res = success ∧ w.root = 0xffffffffbffff000 := of_decide_eq_true htest
  have hlength : tableLength (rootMemory (rootTable 60 135 0)) w.root = 60 := by
    rw [hroot]
    decide
  refine ⟨w, s', hok, ?_, ?_, ?_⟩
  · show tableSignature (rootMemory (rootTable 60 135 0)) w.root "RSDT" = .ok true
    rw [hroot]
    decide
  · show checksumMatches (rootMemory (rootTable 60 135 0)) w.root
      (tableLength (rootMemory (rootTable 60 135 0)) w.root) = true
    rw [hlength, hroot]
    decide +kernel
  · show ¬ SizedRight 2 (tableLength (rootMemory (rootTable 60 135 0)) w.root)
    rw [hlength, sizedRight_iff (by omega) (by omega)]
    decide

/-- The free page is used up by the root table, and the pointer of the one entry dangles. -/
theorem noDangling_small :
    ∃ v s', acpiInit (kernel 0x8000#64) 2 0xffffffffbffff000 (.table 0x1000#64)
        (rootView (rootTable 40 123 32)) SlabHeap.openEnv id .rsdp smallDesc
        (.init SlabHeap.mmInit) lastPage = .ok ((-efull, v), s') ∧ ¬ NoDangling v := by
  have hrun : (acpiInit (kernel 0x8000#64) 2 0xffffffffbffff000 (.table 0x1000#64)
      (rootView (rootTable 40 123 32)) SlabHeap.openEnv id .rsdp smallDesc
      (.init SlabHeap.mmInit) lastPage).toOption.any
      (fun x => decide (x.1.1 = -efull ∧ x.1.2.tbls ≠ 0)) = true := by
    decide +kernel
  obtain ⟨⟨⟨res, v⟩, s'⟩, hok, htest⟩ := Except.exists_of_any hrun
  obtain ⟨rfl, htbls⟩ : res = -efull ∧ v.tbls ≠ 0 := of_decide_eq_true htest
  refine ⟨v, s', hok, ?_⟩
  rw [noDangling_iff (by decide) (by decide) hok (by decide)]
  exact htbls

/-- In this run no call of `map_table` for an entry has returned `SUCCESS`, and the array
begins with the address behind the kernel. -/
theorem not_noDangling_first :
    ∃ v s', acpiInit (kernel 0x8000#64) 2 0xffffffffbffff000 (.table 0x1000#64)
        (rootView (rootTable 40 123 32)) SlabHeap.openEnv id .rsdp smallDesc
        (.init SlabHeap.mmInit) lastPage = .ok ((-efull, v), s') ∧
      v.tbls ≠ 0 ∧ v.entries 0 = 0xffffffffbffff000 ∧ v.mapped = [] ∧ ¬ NoDangling v := by
  have hrun : (acpiInit (kernel 0x8000#64) 2 0xffffffffbffff000 (.table 0x1000#64)
      (rootView (rootTable 40 123 32)) SlabHeap.openEnv id .rsdp smallDesc
      (.init SlabHeap.mmInit) lastPage).toOption.any
      (fun x => decide (x.1.1 = -efull ∧ x.1.2.tbls ≠ 0 ∧
        x.1.2.entries 0 = 0xffffffffbffff000 ∧ x.1.2.mapped = [])) = true := by
    decide +kernel
  obtain ⟨⟨⟨res, v⟩, s'⟩, hok, htest⟩ := Except.exists_of_any hrun
  obtain ⟨rfl, htbls, hfirst, hmapped⟩ : res = -efull ∧ v.tbls ≠ 0 ∧
    v.entries 0 = 0xffffffffbffff000 ∧ v.mapped = [] := of_decide_eq_true htest
  refine ⟨v, s', hok, htbls, hfirst, hmapped, fun h => ?_⟩
  have hmem := h htbls 0 fun j hj => by
    obtain rfl : j = 0 := by omega
    rw [hfirst]
    decide
  rw [hmapped] at hmem
  exact List.not_mem_nil hmem

end Mimik.Acpi
