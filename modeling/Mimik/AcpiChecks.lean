/-
# What the checks of an ACPI descriptor cover

`acpi_init_generic` sums up the bytes of an RSDP, also for an XSDP, of which an RSDP is the
first part.  A byte that is changed there changes the sum, and the descriptor is refused
before anything is mapped.  The bytes behind it, the address of the XSDT among them, are
covered by no check (`corruption_rejected_iff`).
-/
import Mimik.AcpiTables
import Mimik.VmFlat

namespace Mimik.Acpi

open FaultState Vm

/-! ## Descriptors -/

/-- `sizeof(struct acpi_rsdp)` or `sizeof(struct acpi_xsdp)`. -/
def AcpiType.size : AcpiType → ℕ
  | .none => 0
  | .rsdp => sizeofRsdp
  | .xsdp => 36

/-- The revision that `acpi_init_rsdp` or `acpi_init_xsdp` asks for. -/
def AcpiType.revision : AcpiType → ℕ
  | .xsdp => 2
  | _ => 0

/-- The checks in front of `map_table` pass. -/
structure Accepted (type : AcpiType) (desc : ByteMemory) : Prop where
  known : type ≠ .none
  checksum : checksumMatches desc 0 sizeofRsdp = true
  signature : signatureMatches desc 0 = true
  revision : (desc 15).toNat = type.revision

/-- `acpi_init` returns `-EINVAL` at once: on every machine, and before anything is mapped, so
that neither the variables nor the machine have changed. -/
def RejectedEarly (type : AcpiType) (desc : ByteMemory) : Prop :=
  ∀ (σ π : Type) (M : Machine σ π) (fuel layoutVaddrEnd : ℕ) (kpml4 : π) (view : σ → ByteMemory)
    (env : SlabHeap.HeapEnv) (grown : σ → σ) (v : AcpiVars) (s : σ),
    acpiInit M fuel layoutVaddrEnd kpml4 view env grown type desc v s = .ok ((-einval, v), s)

section Checks

variable {σ π : Type} {M : Machine σ π} {fuel layoutVaddrEnd : ℕ} {kpml4 : π}
  {view : σ → ByteMemory} {env : SlabHeap.HeapEnv} {grown : σ → σ} {desc : ByteMemory}
  {v : AcpiVars} {type : AcpiType}

/-- A descriptor that fails a check is refused by `acpi_init_generic`. -/
theorem acpiInitGeneric_refuses {sdtAddress revision : ℕ}
    (h : ¬ (checksumMatches desc 0 sizeofRsdp = true ∧ signatureMatches desc 0 = true ∧
      (desc 15).toNat = revision)) :
    acpiInitGeneric M fuel layoutVaddrEnd kpml4 view desc sdtAddress revision v =
      pure (-einval, v) := by
  unfold acpiInitGeneric
  by_cases hchecksum : checksumMatches desc 0 sizeofRsdp = true
  · by_cases hsignature : signatureMatches desc 0 = true
    · have hrevision : (desc 15).toNat ≠ revision := fun heq => h ⟨hchecksum, hsignature, heq⟩
      simp [hchecksum, hsignature, hrevision]
    · simp [hchecksum, hsignature]
  · simp [hchecksum]

/-- So is it by `acpi_init`. -/
theorem rejectedEarly_of_not_accepted (hknown : type ≠ .none) (h : ¬ Accepted type desc) :
    RejectedEarly type desc := by
  intro σ π M fuel layoutVaddrEnd kpml4 view env grown v s
  have hfails : ¬ (checksumMatches desc 0 sizeofRsdp = true ∧ signatureMatches desc 0 = true ∧
      (desc 15).toNat = type.revision) := fun ⟨h₁, h₂, h₃⟩ => h ⟨hknown, h₁, h₂, h₃⟩
  have herror : isError (-einval) = true := by decide
  cases type with
  | none => exact absurd rfl hknown
  | rsdp =>
    unfold acpiInit acpiInitRsdp acpiInitRoot
    simp only [AcpiType.revision] at hfails
    simp [acpiInitGeneric_refuses hfails, herror]
    rfl
  | xsdp =>
    unfold acpiInit acpiInitXsdp acpiInitRoot
    simp only [AcpiType.revision] at hfails
    simp [acpiInitGeneric_refuses hfails, herror]
    rfl

/-- A search without fuel does not return. -/
theorem findSpace_no_fuel (paddrStart : PAddr) (pages : ℕ) (flags : Flags) (height : ℕ)
    (index : List ℕ) (pt : π) : Triple (fun _ => True)
      (findSpace M 0 paddrStart pages flags height index pt) fun _ _ => False := by
  cases height with
  | zero => exact Triple.fault _
  | succ height => exact Triple.fault _

/-- So `map_table` does not. -/
theorem mapTable_no_fuel (paddr out : ℕ) : Triple (fun _ => True)
    (mapTable M 0 layoutVaddrEnd kpml4 view paddr out) fun _ _ => False := by
  have hany : ∀ {α : Type} (x : Prog Fault σ α), Triple (fun _ => True) x fun _ _ => True :=
    fun x => ⟨fun _ _ _ _ _ => trivial⟩
  have hnever : ∀ {α : Type} (x : Prog Fault σ α), Triple (fun _ => False) x fun _ _ => False :=
    fun x => ⟨fun _ h => h.elim⟩
  unfold mapTable vmkMapBytes vmMapBytes vmMapPages
  refine Triple.bind ?_ fun _ => hnever _
  refine Triple.bind (hany _) fun _ => ?_
  refine Triple.bind (hany _) fun hint => ?_
  refine Triple.bind ?_ fun _ => hnever _
  -- the assertions of `vm_map_pages`
  refine Triple.bind (hany _) fun _ => ?_
  refine Triple.bind (hany _) fun _ => ?_
  refine Triple.bind (hany _) fun _ => ?_
  exact Triple.bind (findSpace_no_fuel _ _ _ _ _ _) fun _ => hnever _

/-- **A descriptor that passes the checks** comes to `map_table`. -/
theorem acpiInit_no_fuel (h : Accepted type desc) : Triple (fun _ => True)
    (acpiInit M 0 layoutVaddrEnd kpml4 view env grown type desc v) fun _ _ => False := by
  have hnever : ∀ {α : Type} (x : Prog Fault σ α), Triple (fun _ => False) x fun _ _ => False :=
    fun x => ⟨fun _ h => h.elim⟩
  obtain ⟨hknown, hchecksum, hsignature, hrevision⟩ := h
  have hgeneric : ∀ sdtAddress revision, (desc 15).toNat = revision → Triple (fun _ => True)
      (acpiInitGeneric M 0 layoutVaddrEnd kpml4 view desc sdtAddress revision v)
      fun _ _ => False := by
    intro sdtAddress revision heq
    unfold acpiInitGeneric
    simp only [hchecksum, hsignature, heq, Bool.not_true, Bool.false_eq_true, if_false, ne_eq,
      not_true_eq_false]
    exact Triple.bind (mapTable_no_fuel _ _) fun _ => hnever _
  unfold acpiInit
  refine Triple.bind ?_ fun _ => hnever _
  cases type with
  | none => exact absurd rfl hknown
  | rsdp => exact Triple.bind (hgeneric _ _ hrevision) fun _ => hnever _
  | xsdp => exact Triple.bind (hgeneric _ _ hrevision) fun _ => hnever _

/-- **What is refused at once** are the descriptors that fail a check. -/
theorem rejectedEarly_iff (hknown : type ≠ .none) :
    RejectedEarly type desc ↔ ¬ Accepted type desc := by
  refine ⟨fun h hacc => ?_, rejectedEarly_of_not_accepted hknown⟩
  let env : SlabHeap.HeapEnv :=
    { freelistHead := fun _ => 0, avail := fun _ => true, taken := fun _ => true,
      image_taken := rfl }
  have hrun := h FlatState PAddr (flat 0) 0 0 0 (fun _ _ => 0) env id (.init SlabHeap.mmInit)
    { mem := fun _ _ => 0, frames := [], tlb := [] }
  exact (acpiInit_no_fuel hacc).run _ trivial _ _ hrun

/-! ## Changes of a byte -/

end Checks

/-- The sum goes on from what it starts with. -/
theorem checksumFrom_add (m : ByteMemory) (sz p : ℕ) (c d : BitVec 8) :
    checksumFrom m sz p (c + d) = checksumFrom m sz p c + d := by
  induction sz generalizing p c with
  | zero => rfl
  | succ sz ih =>
    rw [checksumFrom, checksumFrom, ← ih]
    congr 1
    rw [BitVec.add_assoc, BitVec.add_assoc, BitVec.add_comm d]

/-- A byte that is changed changes the sum by the difference, when it is one of its bytes. -/
theorem checksumFrom_update (m : ByteMemory) (i : ℕ) (b : BitVec 8) (sz p : ℕ) (c : BitVec 8) :
    checksumFrom (Function.update m i b) sz p c =
      checksumFrom m sz p c + if p ≤ i ∧ i < p + sz then b - m i else 0#8 := by
  induction sz generalizing p c with
  | zero => rw [if_neg (by omega), BitVec.add_zero]; rfl
  | succ sz ih =>
    rw [checksumFrom, checksumFrom, ih]
    by_cases hp : p = i
    · have hbyte : c + b = c + m i + (b - m i) := by
        rw [BitVec.add_assoc, BitVec.add_comm (m i), BitVec.sub_add_cancel]
      rw [if_neg (by omega), BitVec.add_zero, if_pos (by omega), hp, Function.update_self, hbyte,
        checksumFrom_add]
    · rw [Function.update_of_ne hp]
      exact congrArg _ (if_congr (by omega) rfl rfl)

/-- The signature does not depend on other bytes. -/
theorem signatureMatches_update (m : ByteMemory) {i : ℕ} (hi : 8 ≤ i) (b : BitVec 8) :
    signatureMatches (Function.update m i b) 0 = signatureMatches m 0 := by
  unfold signatureMatches
  rw [Bool.eq_iff_iff, List.all_eq_true, List.all_eq_true]
  refine forall_congr' fun j => imp_congr_right fun hj => ?_
  have hne : 0 + j ≠ i := by
    have hlt := List.mem_range.mp hj
    omega
  rw [Function.update_of_ne hne]

/-- **Corrupted descriptors are rejected** when the byte is one of the first 20, and not when it
is one of the others that an XSDP has. -/
theorem corruption_rejected_iff {type : AcpiType} {desc : ByteMemory} {i : ℕ} {b : BitVec 8}
    (hacc : Accepted type desc) (hb : b ≠ desc i) :
    RejectedEarly type (Function.update desc i b) ↔ i < sizeofRsdp := by
  obtain ⟨hknown, hchecksum, hsignature, hrevision⟩ := hacc
  rw [rejectedEarly_iff hknown]
  have hsum : checksumFrom desc sizeofRsdp 0 0 = 0#8 := of_decide_eq_true hchecksum
  constructor
  · intro hrejected
    by_contra hi
    have hge : sizeofRsdp ≤ i := Nat.not_lt.mp hi
    rw [sizeofRsdp] at hge
    refine hrejected ⟨hknown, ?_, ?_, ?_⟩
    · rw [checksumMatches, checksumFrom_update, if_neg (by rw [sizeofRsdp]; omega), BitVec.add_zero]
      exact hchecksum
    · rw [signatureMatches_update _ (by omega)]
      exact hsignature
    · rw [Function.update_of_ne (by omega)]
      exact hrevision
  · rintro hi ⟨-, hmatches, -, -⟩
    rw [checksumMatches, checksumFrom_update, if_pos (by omega), hsum, BitVec.zero_add,
      decide_eq_true_eq] at hmatches
    refine hb ?_
    calc b = b - desc i + desc i := (BitVec.sub_add_cancel b (desc i)).symm
      _ = desc i := by rw [hmatches]; exact BitVec.zero_add _

/-- An XSDP. -/
def xsdp : ByteMemory := fun i =>
  if i < 8 then (chars "RSD PTR ").getD i 0
  else if i = 8 then 223
  else if i = 15 then 2
  else 0

theorem accepted_xsdp : Accepted .xsdp xsdp :=
  ⟨by simp, by decide +kernel, by decide +kernel, by decide⟩

/-- Its checksum byte. -/
theorem corruption_rejected_checksum : RejectedEarly .xsdp (Function.update xsdp 8 0) :=
  (corruption_rejected_iff accepted_xsdp (by decide)).mpr (by decide)

/-- **The address of the XSDT may be anything.** -/
theorem not_corruption_rejected : Accepted .xsdp xsdp ∧ 25 < AcpiType.xsdp.size ∧ 1 ≠ xsdp 25 ∧
    ¬ RejectedEarly .xsdp (Function.update xsdp 25 1) := by
  refine ⟨accepted_xsdp, by decide, by decide, fun h => (rejectedEarly_iff (by simp)).mp h ?_⟩
  exact ⟨by simp, by decide +kernel, by decide +kernel, by decide⟩

end Mimik.Acpi
