/-
# Boot information, from the loader to the kernel

The run of `init_bootinfo` over all tags of a block, the relocation of the pointers in
`_stub64`, and what the kernel then reads.
-/
import Mimik.BootInfoRun

namespace Mimik.Boot

open Mimik.Vm

variable {sym : BootSymbols} {mem mem' mem₀ : ByteMemory} {start b a fuel edi esi : ℕ}
  {tags seen ts : List Tag} {t : Tag} {S : List ℕ} {s : List (BitVec 8)}

/-! ## All tags -/

variable (sym start b fuel esi) in
/-- A round of `parse_next_tag` for a tag that is not the end tag. -/
theorem parseNextTag_succ (htype : mem.load edi 4 = t.type)
    (hsize : mem.load (edi + 4) 4 = 8 + t.payload) (hzero : t.type ≠ 0)
    (hedi : edi + 8 + t.payload < 2 ^ 32) :
    parseNextTag sym start esi (fuel + 1) mem edi b =
      (handleTag sym fuel mem t.type b (edi + 8) t.payload >>= fun r =>
        if signed32 esi ≤ signed32 (sub32 (nextTag r.1 edi) start) then .ok (r.1, alignUp8 r.2)
        else parseNextTag sym start esi fuel r.1 (nextTag r.1 edi) (alignUp8 r.2)) := by
  have hfield : add32 edi 4 = edi + 4 := add32_of_lt (by omega)
  have hpayload : add32 (edi + 4) 4 = edi + 8 := add32_of_lt (by omega)
  have hcount : sub32 (8 + t.payload) 8 = t.payload := sub32_eight (by omega)
  conv_lhs => unfold parseNextTag
  simp only [htype, hfield, hsize, hpayload, hcount, if_neg hzero]
  rfl

/-- The end tag ends the run. -/
theorem parseNextTag_end (htype : mem.load edi 4 = 0) :
    parseNextTag sym start esi (fuel + 1) mem edi b = .ok (mem, b) := by
  unfold parseNextTag
  simp only [htype, if_true]
  rfl

/-- The address of the next tag. -/
theorem nextTag_eq (hsize : mem.load (edi + 4) 4 = 8 + t.payload) (haligned : edi % 8 = 0)
    (hedi : edi + t.padded < 2 ^ 32) : nextTag mem edi = edi + t.padded := by
  unfold Tag.padded at hedi ⊢
  have hfield : add32 edi 4 = edi + 4 := add32_of_lt (by omega)
  unfold nextTag
  simp only [hfield, hsize]
  unfold alignUp8 add32 sub32
  omega

/-- The type of a tag with a payload is not that of the end tag. -/
theorem type_ne_zero (h : t.PayloadAt mem a) : t.type ≠ 0 := by
  cases t with
  | cmdline s => simp [Tag.type]
  | module m => simp [Tag.type]
  | memMap es => simp [Tag.type]
  | other type payload =>
    have hmem := h.1
    simp only [List.mem_cons, not_or] at hmem
    exact hmem.1

/-- Tags are aligned to 8 bytes. -/
theorem tagAddr_mod (h : start % 8 = 0) : tagAddr start seen % 8 = 0 := by
  have hsum : (seen.map Tag.padded).sum % 8 = 0 := by
    induction seen with
    | nil => rfl
    | cons t ts ih =>
      rw [List.map_cons, List.sum_cons]
      unfold Tag.padded at ih ⊢
      omega
  unfold tagAddr
  omega

/-- The end tag is where it was, and nothing is done with it. -/
theorem Parsed.last (hp : Placed sym mem₀ start tags) (hat : TagsAt mem₀ (tagAddr start tags) [])
    (hparsed : Parsed sym mem₀ tags mem b) (hle : b ≤ dataEnd sym.bootinfoData tags) (fuel : ℕ) :
    parseNextTag sym start (blockSize tags) (fuel + 1) mem (tagAddr start tags) b =
      .ok (mem, b) := by
  have hstop : tagAddr start tags + 8 ≤ start + blockSize tags := by
    unfold tagAddr blockSize
    omega
  apply parseNextTag_end
  rw [ByteMemory.load_congr fun x hlo hhi => hparsed.block hp hle ?_ ?_, hat.1]
  · unfold tagAddr at hlo
    omega
  · omega

/-- **A round over the tags.**  The tag is handled, its copy keeps the invariant, and the run goes
on behind it unless the block ends there. -/
theorem Parsed.round (hp : Placed sym mem₀ start tags) (htags : tags = seen ++ t :: ts)
    (hat : TagsAt mem₀ (tagAddr start seen) (t :: ts)) (hparsed : Parsed sym mem₀ seen mem b)
    (hend : dataEnd b (t :: ts) = dataEnd sym.bootinfoData tags) :
    (b + t.room + 7) / 8 * 8 ≤ dataEnd sym.bootinfoData tags ∧
      (∀ fuel r, handleTag sym fuel mem t.type b (tagAddr start seen + 8) t.payload = .ok r →
        Parsed sym mem₀ (seen ++ [t]) r.1 ((b + t.room + 7) / 8 * 8)) ∧
      ∀ fuel r, parseNextTag sym start (blockSize tags) (fuel + 1) mem (tagAddr start seen) b =
          .ok r ↔
        ∃ r', handleTag sym fuel mem t.type b (tagAddr start seen + 8) t.payload = .ok r' ∧
          (if signed32 (blockSize tags) ≤ signed32 (tagAddr start (seen ++ [t]) - start) then
              .ok (r'.1, (b + t.room + 7) / 8 * 8)
            else parseNextTag sym start (blockSize tags) fuel r'.1 (tagAddr start (seen ++ [t]))
              ((b + t.room + 7) / 8 * 8)) = .ok r := by
  obtain ⟨htype₀, hsize₀, hpayload, hrest⟩ := hat
  rw [dataEnd] at hend
  have hmemory := hp.in_memory
  have hdata_end := hp.data_end
  have hstop := tagAddr_le start htags
  have hpadded := payload_le_padded t
  have hlo : start ≤ tagAddr start seen := by
    unfold tagAddr
    omega
  -- the next copy
  have hroom : (b + t.room + 7) / 8 * 8 ≤ dataEnd sym.bootinfoData tags := by
    rw [← hend]
    exact le_dataEnd ts _
  have hle : b ≤ dataEnd sym.bootinfoData tags := by omega
  have hblock : ∀ {m : ByteMemory} {seen' : List Tag} {b' : ℕ}, Parsed sym mem₀ seen' m b' →
      b' ≤ dataEnd sym.bootinfoData tags →
      m.load (tagAddr start seen) 4 = t.type ∧
        m.load (tagAddr start seen + 4) 4 = 8 + t.payload := by
    intro m seen' b' hm hb'
    constructor
    · rw [ByteMemory.load_congr fun x hx hx' => hm.block hp hb' (by omega) (by omega), htype₀]
    · rw [ByteMemory.load_congr fun x hx hx' => hm.block hp hb' (by omega) (by omega), hsize₀]
  obtain ⟨htype, hsize⟩ := hblock hparsed hle
  have hhandle : ∀ fuel r,
      handleTag sym fuel mem t.type b (tagAddr start seen + 8) t.payload = .ok r →
      r.2 = b + t.room ∧ Parsed sym mem₀ (seen ++ [t]) r.1 ((b + t.room + 7) / 8 * 8) :=
    fun fuel r hr => hparsed.handle hp htags hpayload (by omega) hroom hr
  refine ⟨hroom, fun fuel r hr => (hhandle fuel r hr).2, fun fuel r => ?_⟩
  rw [parseNextTag_succ sym start b fuel (blockSize tags) htype hsize (type_ne_zero hpayload)
    (by omega), Except.bind_eq_ok_iff]
  refine exists_congr fun r' => and_congr_right fun hr' => ?_
  obtain ⟨hcursor, hparsed'⟩ := hhandle fuel r' hr'
  have hnext : nextTag r'.1 (tagAddr start seen) = tagAddr start (seen ++ [t]) := by
    rw [tagAddr_append]
    exact nextTag_eq (hblock hparsed' hroom).2 (tagAddr_mod hp.block.aligned) (by omega)
  have hsub : sub32 (tagAddr start (seen ++ [t])) start = tagAddr start (seen ++ [t]) - start := by
    rw [tagAddr_append]
    unfold sub32
    omega
  have halign : alignUp8 r'.2 = (b + t.room + 7) / 8 * 8 := by
    rw [hcursor]
    unfold alignUp8
    rw [add32_of_lt (by omega)]
  rw [hnext, hsub, halign]

/-- **The run over the tags.**  It keeps the invariant; and it returns, with any fuel that is
enough, when there are no modules. -/
theorem Parsed.run (hp : Placed sym mem₀ start tags) (ts : List Tag) :
    ∀ {seen : List Tag} {mem : ByteMemory} {b : ℕ}, tags = seen ++ ts →
      TagsAt mem₀ (tagAddr start seen) ts → Parsed sym mem₀ seen mem b →
      dataEnd b ts = dataEnd sym.bootinfoData tags →
      (∀ fuel r, parseNextTag sym start (blockSize tags) fuel mem (tagAddr start seen) b = .ok r →
        ∃ b' ≤ dataEnd sym.bootinfoData tags,
          Parsed sym mem₀ (seen ++ visited start (blockSize tags) seen ts) r.1 b') ∧
      ((∀ t ∈ ts, t.type ≠ 3) → ∃ r, ∀ fuel > ts.length,
        parseNextTag sym start (blockSize tags) fuel mem (tagAddr start seen) b = .ok r) := by
  induction ts with
  | nil =>
    intro seen mem b htags hat hparsed hend
    rw [List.append_nil] at htags
    subst htags
    have hle : b ≤ dataEnd sym.bootinfoData tags := hend ▸ le_dataEnd [] b
    have hrun := hparsed.last hp hat hle
    refine ⟨?_, ?_⟩
    · intro fuel r hr
      cases fuel with
      | zero => cases hr
      | succ fuel =>
        rw [hrun] at hr
        cases hr
        refine ⟨b, hle, ?_⟩
        unfold visited
        rw [List.append_nil]
        exact hparsed
    · intro _
      refine ⟨(mem, b), ?_⟩
      intro fuel hfuel
      obtain ⟨fuel, rfl⟩ := Nat.exists_eq_succ_of_ne_zero (Nat.ne_of_gt hfuel)
      exact hrun fuel
  | cons t ts ih =>
    intro seen mem b htags hat hparsed hend
    obtain ⟨hroom, hkeep, hround⟩ := hparsed.round hp htags hat hend
    obtain ⟨-, -, hpayload, hrest⟩ := hat
    rw [dataEnd] at hend
    rw [← tagAddr_append] at hrest
    have htags' : tags = (seen ++ [t]) ++ ts := by rw [htags]; simp
    have hstop := tagAddr_le start htags
    have hpadded := payload_le_padded t
    refine ⟨?_, ?_⟩
    · intro fuel r hr
      cases fuel with
      | zero => cases hr
      | succ fuel =>
        obtain ⟨r', hr', hrest'⟩ := (hround fuel r).mp hr
        unfold visited
        by_cases hjge : signed32 (blockSize tags) ≤
            signed32 (tagAddr start (seen ++ [t]) - start)
        · rw [if_pos hjge] at hrest' ⊢
          cases hrest'
          exact ⟨_, hroom, hkeep fuel r' hr'⟩
        · rw [if_neg hjge] at hrest' ⊢
          rw [List.append_cons]
          exact (ih htags' hrest (hkeep fuel r' hr') hend).1 fuel r hrest'
    · intro hnone
      have hmemory := hp.in_memory
      have hle : b ≤ dataEnd sym.bootinfoData tags := by omega
      have hlo : start ≤ tagAddr start seen := by
        unfold tagAddr
        omega
      obtain ⟨r', hr'⟩ := handleTag_returns sym (hnone t List.mem_cons_self)
        (PayloadAt.congr hpayload fun x hx hx' => hparsed.block hp hle (by omega) (by omega)) b
      by_cases hjge : signed32 (blockSize tags) ≤ signed32 (tagAddr start (seen ++ [t]) - start)
      · refine ⟨(r'.1, (b + t.room + 7) / 8 * 8), ?_⟩
        intro fuel hfuel
        obtain ⟨fuel, rfl⟩ := Nat.exists_eq_succ_of_ne_zero (Nat.ne_of_gt (Nat.zero_lt_of_lt hfuel))
        exact (hround fuel _).mpr ⟨r', hr' fuel, if_pos hjge⟩
      · obtain ⟨r, hr⟩ := (ih htags' hrest (hkeep 0 r' (hr' 0)) hend).2
          fun t' ht' => hnone t' (List.mem_cons_of_mem _ ht')
        refine ⟨r, ?_⟩
        intro fuel hfuel
        obtain ⟨fuel, rfl⟩ := Nat.exists_eq_succ_of_ne_zero (Nat.ne_of_gt (Nat.zero_lt_of_lt hfuel))
        rw [List.length_cons] at hfuel
        exact (hround fuel r).mpr ⟨r', hr' fuel, (if_neg hjge).trans (hr fuel (by omega))⟩

/-- Nothing is left of a clear `_bootinfo` before the first tag. -/
theorem Placed.parsed (hp : Placed sym mem₀ start tags) :
    Parsed sym mem₀ [] mem₀ sym.bootinfoData := by
  have hload : ∀ off n, off + n ≤ 80 → mem₀.load (sym.bootinfo + off) n = 0 := by
    intro off n hoff
    exact ByteMemory.load_zero fun x hlo hhi => hp.clear x (by omega) (by omega)
  refine ⟨le_rfl, fun _ _ _ => rfl, ?_, fun _ => ⟨hload 8 4 (by decide), ?_, ?_⟩, ?_⟩
  · intro off hoff _
    exact hp.clear _ (by omega) (by omega)
  · exact ⟨fun _ => hload 0 4 (by decide), fun _ hs => nomatch hs⟩
  · exact ⟨fun _ => hload 16 4 (by decide), fun _ hes => nomatch hes⟩
  · rintro ⟨t, ht, -⟩
    cases ht

/-- The registers at label `parse_next_tag`. -/
theorem Placed.initBootinfo_eq (hp : Placed sym mem₀ start tags) (fuel : ℕ) :
    initBootinfo sym fuel mem₀ start =
      parseNextTag sym start (blockSize tags) fuel mem₀ (tagAddr start []) sym.bootinfoData := by
  have hmemory := hp.in_memory
  have hfirst : add32 start 8 = tagAddr start [] := by
    rw [add32_of_lt (by unfold blockSize at hmemory; omega)]
    rfl
  unfold initBootinfo
  simp only [hp.block.size, hfirst]

/-- **What `init_bootinfo` leaves**, when it returns; and it does, when there are no modules. -/
theorem Placed.initBootinfo_spec (hp : Placed sym mem₀ start tags) :
    (∀ fuel r, initBootinfo sym fuel mem₀ start = .ok r →
      ∃ b' ≤ dataEnd sym.bootinfoData tags,
        Parsed sym mem₀ (visited start (blockSize tags) [] tags) r.1 b') ∧
    ((∀ t ∈ tags, t.type ≠ 3) → ∃ r, ∀ fuel > tags.length,
      initBootinfo sym fuel mem₀ start = .ok r) := by
  simp only [hp.initBootinfo_eq]
  exact Parsed.run hp tags rfl hp.block.tags hp.parsed rfl

/-! ## The pointers of the higher half -/

/-- The first two stores of the relocation. -/
def relocated (sym : BootSymbols) (mem : ByteMemory) : ByteMemory :=
  let mem := mem.store sym.bootinfo 8 (wrap64 (mem.load sym.bootinfo 8 + higherHalf))
  mem.store (sym.bootinfo + 24) 8 (wrap64 (mem.load (sym.bootinfo + 24) 8 + higherHalf))

theorem relocate_eq (fuel : ℕ) (mem : ByteMemory) :
    relocate sym fuel mem = relocateModules fuel (relocated sym mem) (sym.bootinfo + 8) := rfl

theorem relocated_of_not_mem {x : ℕ} (h : x < sym.bootinfo ∨ sym.bootinfo + 8 ≤ x)
    (h' : x < sym.bootinfo + 24 ∨ sym.bootinfo + 32 ≤ x) : relocated sym mem x = mem x := by
  unfold relocated
  rw [ByteMemory.store_of_not_mem (by omega), ByteMemory.store_of_not_mem (by omega)]

/-- A pointer of the lower 2 GiB, in the higher half. -/
theorem wrap64_higherHalf {p : ℕ} (h : p < 2 ^ 31) : wrap64 (p + higherHalf) = p + higherHalf := by
  refine wrap64_of_lt ?_
  unfold higherHalf
  omega

/-- It points to the same place. -/
theorem physical_higherHalf (p : ℕ) : physical (p + higherHalf) = p := by
  unfold physical
  rw [if_pos (Nat.le_add_left _ _), Nat.add_sub_cancel]

theorem physical_of_lt {p : ℕ} (h : p < 2 ^ 32) : physical p = p := by
  unfold physical higherHalf
  rw [if_neg (by omega)]

theorem load_relocated_cmdline {p : ℕ} (h : mem.load sym.bootinfo 8 = p) (hp : p < 2 ^ 31) :
    (relocated sym mem).load sym.bootinfo 8 = p + higherHalf := by
  have hlt : p + higherHalf < 256 ^ 8 := by
    unfold higherHalf
    omega
  unfold relocated
  simp only [h, wrap64_higherHalf hp]
  rw [ByteMemory.load_store_of_disjoint (by omega), ByteMemory.load_store hlt]

theorem load_relocated_segments {p : ℕ} (h : mem.load (sym.bootinfo + 24) 8 = p)
    (hp : p < 2 ^ 31) : (relocated sym mem).load (sym.bootinfo + 24) 8 = p + higherHalf := by
  have hlt : p + higherHalf < 256 ^ 8 := by
    unfold higherHalf
    omega
  unfold relocated
  simp (disch := omega) only [ByteMemory.load_store_of_disjoint, h, wrap64_higherHalf hp]
  rw [ByteMemory.load_store hlt]

/-- The loop over an empty list. -/
theorem relocateModules_nil (h : mem.load (physical a) 8 = 0) :
    relocateModules (fuel + 1) mem a = .ok mem := by
  unfold relocateModules
  simp only [h, if_true]

/-- A round of the loop, for a pointer to the lower 2 GiB. -/
theorem relocateModules_cons {p : ℕ} (h : mem.load (physical a) 8 = p) (hpos : p ≠ 0)
    (hp : p < 2 ^ 31) : relocateModules (fuel + 1) mem a =
      relocateModules fuel (mem.store (physical a) 8 (p + higherHalf)) (p + higherHalf) := by
  conv_lhs => unfold relocateModules
  simp only [h, if_neg hpos, wrap64_higherHalf hp]

/-- **The loop over the records** writes to the first words of records only. -/
theorem relocateModules_kept (hpos : ∀ x ∈ S, x ≠ 0 ∧ x < 2 ^ 31)
    (hapart : ∀ x ∈ S, ∀ y ∈ S, x < y → x + 32 ≤ y) (fuel : ℕ) :
    ∀ {mem mem' : ByteMemory} {x : ℕ}, x ∈ S →
      (∀ y ∈ S, x ≤ y → mem.load y 8 = 0 ∨ (mem.load y 8 ∈ S ∧ y < mem.load y 8)) →
      relocateModules fuel mem (x + higherHalf) = .ok mem' →
      ∀ z, (∀ y ∈ S, z < y ∨ y + 8 ≤ z) → mem' z = mem z := by
  induction fuel with
  | zero =>
    intro mem mem' x _ _ hrun
    cases hrun
  | succ fuel ih =>
    intro mem mem' x hx hnext hrun z hz
    rcases hnext x hx le_rfl with hnone | ⟨hmem, hgt⟩
    · rw [relocateModules_nil (by rw [physical_higherHalf, hnone])] at hrun
      cases hrun
      rfl
    · generalize hp : mem.load x 8 = p at hmem hgt
      rw [relocateModules_cons (by rw [physical_higherHalf, hp]) (hpos p hmem).1 (hpos p hmem).2,
        physical_higherHalf] at hrun
      rw [ih hmem ?_ hrun z hz, ByteMemory.store_of_not_mem (hz x hx)]
      -- the records that are to come are as they were
      intro y hy hle
      have := hapart x hx y hy (by omega)
      rw [ByteMemory.load_store_of_disjoint (by omega)]
      exact hnext y hy (by omega)

/-- **Where there are modules**, the first one has an empty command line. -/
theorem Records.relocate (h : Records sym mem b a S) (hb : b ≤ 2 ^ 31)
    (hdata : 0 < sym.bootinfoData)
    (hstruct : sym.bootinfo + 80 ≤ sym.bootinfoData ∨ b ≤ sym.bootinfo)
    (hstruct_end : sym.bootinfo + 80 ≤ 2 ^ 31)
    (hhigh : mem.load (sym.bootinfo + 12) 4 = 0)
    (hrun : Boot.relocate sym fuel mem = .ok mem') :
    mem'.load (sym.bootinfo + 8) 8 = a + higherHalf ∧ mem' (a + 24) = 0 := by
  have hwithin := h.within
  obtain ⟨ha_lo, ha_hi⟩ := hwithin a h.mem_first
  have hpointer : (relocated sym mem).load (physical (sym.bootinfo + 8)) 8 = a := by
    rw [physical_of_lt (by omega),
      ByteMemory.load_congr fun x hlo hhi => relocated_of_not_mem (by omega) (by omega), load_eight,
      h.first, hhigh, Nat.mul_zero, Nat.add_zero]
  have hplace : physical (sym.bootinfo + 8) = sym.bootinfo + 8 := physical_of_lt (by omega)
  rw [relocate_eq] at hrun
  cases fuel with
  | zero => cases hrun
  | succ fuel =>
    rw [relocateModules_cons hpointer (by omega) (by omega), hplace] at hrun
    have hkept := relocateModules_kept (fun x hx => ⟨?_, ?_⟩) h.apart fuel h.mem_first ?_ hrun
    · constructor
      · rw [ByteMemory.load_congr fun x hlo hhi => hkept x ?_,
          ByteMemory.load_store (by unfold higherHalf; omega)]
        intro y hy
        have := hwithin y hy
        omega
      · rw [hkept (a + 24) ?_, ByteMemory.store_of_not_mem (by omega),
          relocated_of_not_mem (by omega) (by omega), h.zero]
        intro y hy
        rcases Nat.lt_trichotomy y a with hlt | rfl | hgt
        · have := h.apart y hy a h.mem_first hlt
          omega
        · omega
        · have := h.apart a h.mem_first y hy hgt
          omega
    · have := hwithin x hx
      omega
    · have := hwithin x hx
      omega
    · intro y hy _
      have := hwithin y hy
      rw [ByteMemory.load_store_of_disjoint (by omega),
        ByteMemory.load_congr fun x hlo hhi => relocated_of_not_mem (by omega) (by omega)]
      exact h.next y hy

/-! ## Which tags survive -/

/-- A tag of a block has its payload in the block. -/
theorem TagsAt.payload (h : TagsAt mem a ts) (ht : t ∈ ts) : ∃ a, t.PayloadAt mem a := by
  induction ts generalizing a with
  | nil => cases ht
  | cons t' ts ih =>
    obtain ⟨-, -, hpayload, hrest⟩ := h
    rcases List.mem_cons.mp ht with rfl | ht
    · exact ⟨_, hpayload⟩
    · exact ih hrest ht

/-- The tags behind those that are visited. -/
theorem visited_append (start size : ℕ) (seen ts : List Tag) :
    visited start size seen ts ++ ts.drop (visited start size seen ts).length = ts := by
  induction ts generalizing seen with
  | nil => rfl
  | cons t ts ih =>
    unfold visited
    split
    · rfl
    · rw [List.length_cons, List.drop_succ_cons, List.cons_append, ih]

/-- All tags are visited in a block that is smaller than 2 GiB. -/
theorem visited_eq_self (hsize : blockSize tags < 2 ^ 31) (htags : tags = seen ++ ts) :
    visited start (blockSize tags) seen ts = ts := by
  induction ts generalizing seen with
  | nil => rfl
  | cons t ts ih =>
    have hend := tagAddr_le start htags
    rw [← tagAddr_append] at hend
    have hstart : start ≤ tagAddr start (seen ++ [t]) := by
      unfold tagAddr
      omega
    have hlt : ¬ signed32 (blockSize tags) ≤
        signed32 (tagAddr start (seen ++ [t]) - start) := by
      unfold signed32
      rw [if_pos hsize, if_pos (by omega)]
      omega
    unfold visited
    rw [if_neg hlt, ih (by rw [htags, List.append_cons])]

/-- The modules are those of the tags of modules. -/
theorem mem_modulesOf {m : BootModule} (h : .module m ∈ tags) : m ∈ modulesOf tags := by
  induction tags with
  | nil => cases h
  | cons t ts ih =>
    rcases List.mem_cons.mp h with rfl | hts
    · exact List.mem_cons_self
    · cases t with
      | module m' => exact List.mem_cons_of_mem _ (ih hts)
      | cmdline s => exact ih hts
      | memMap es => exact ih hts
      | other type payload => exact ih hts

theorem modulesOf_eq_nil (h : ∀ t ∈ tags, t.type ≠ 3) : modulesOf tags = [] := by
  induction tags with
  | nil => rfl
  | cons t ts ih =>
    have hrest := ih fun t' ht' => h t' (List.mem_cons_of_mem _ ht')
    cases t with
    | module m' => exact absurd rfl (h _ List.mem_cons_self)
    | cmdline s => exact hrest
    | memMap es => exact hrest
    | other type payload => exact hrest

/-- The modules of a block have command lines. -/
theorem modulesOf_cmdline (h : TagsAt mem a ts) : ∀ m ∈ modulesOf ts, m.cmdline ≠ [] := by
  induction ts generalizing a with
  | nil =>
    intro m hm
    cases hm
  | cons t ts ih =>
    obtain ⟨-, -, hpayload, hrest⟩ := h
    cases t with
    | module m' =>
      intro m hm
      rcases List.mem_cons.mp hm with rfl | hm
      · exact hpayload.2.2.1
      · exact ih hrest m hm
    | cmdline s => exact ih hrest
    | memMap es => exact ih hrest
    | other type payload => exact ih hrest

/-- A string that is not empty does not start with NUL. -/
theorem IsString.first_ne_zero (h : IsString mem a s) (hne : s ≠ []) : mem a ≠ 0 := by
  obtain ⟨c, s, rfl⟩ := List.exists_cons_of_ne_nil hne
  have hfirst := h.2 0 (Nat.zero_le _)
  rw [Nat.add_zero, List.getD_cons_zero] at hfirst
  rw [hfirst]
  intro hzero
  exact h.1 (hzero ▸ List.mem_cons_self)

/-- The upper half of a field is clear. -/
theorem Parsed.high_word (h : Parsed sym mem₀ seen mem b) {off : ℕ} (hoff : off + 8 ≤ 32)
    (hmod : off % 8 = 0) : mem.load (sym.bootinfo + off + 4) 4 = 0 := by
  refine ByteMemory.load_zero ?_
  intro x hlo hhi
  have hx := h.high (x - sym.bootinfo) (by omega) (by omega)
  rwa [show sym.bootinfo + (x - sym.bootinfo) = x by omega] at hx

/-- The field is its lower half. -/
theorem Parsed.load_field (h : Parsed sym mem₀ seen mem b) (off : ℕ) (hoff : off + 8 ≤ 32)
    (hmod : off % 8 = 0) : mem.load (sym.bootinfo + off) 8 = mem.load (sym.bootinfo + off) 4 := by
  rw [load_eight, h.high_word hoff hmod, Nat.mul_zero, Nat.add_zero]

/-- The relocation of an empty list of modules. -/
theorem relocate_clean (hnone : mem.load (sym.bootinfo + 8) 8 = 0)
    (hstruct_end : sym.bootinfo + 80 ≤ 2 ^ 31) (hfuel : 0 < fuel) :
    relocate sym fuel mem = .ok (relocated sym mem) := by
  obtain ⟨fuel, rfl⟩ := Nat.exists_eq_succ_of_ne_zero (Nat.ne_of_gt hfuel)
  rw [relocate_eq]
  refine relocateModules_nil ?_
  rw [physical_of_lt (by omega),
    ByteMemory.load_congr fun x hlo hhi => relocated_of_not_mem (by omega) (by omega), hnone]

/-- What the relocation leaves, when no module was seen. -/
theorem Parsed.relocate_eq (h : Parsed sym mem₀ seen mem b) (hp : Placed sym mem₀ start tags)
    (hnone : ∀ t ∈ seen, t.type ≠ 3) (hfuel : 0 < fuel) :
    relocate sym fuel mem = .ok (relocated sym mem) := by
  refine relocate_clean ?_ hp.struct_end hfuel
  rw [h.load_field _ (by decide) (by decide), (h.clean hnone).modules]

/-- A tag of the block, by its type. -/
theorem Placed.cases (hp : Placed sym mem₀ start tags) (ht : t ∈ tags) :
    (t.type = 1 → ∃ s, t = .cmdline s) ∧ (t.type = 3 → ∃ m, t = .module m) ∧
      (t.type = 6 → ∃ es, t = .memMap es ∧ es ≠ []) := by
  obtain ⟨a, hpayload⟩ := hp.block.tags.payload ht
  cases t with
  | cmdline s => exact ⟨fun _ => ⟨s, rfl⟩, nofun, nofun⟩
  | module m => exact ⟨nofun, fun _ => ⟨m, rfl⟩, nofun⟩
  | memMap es => exact ⟨nofun, nofun, fun _ => ⟨es, rfl, hpayload.2.1⟩⟩
  | other type payload =>
    have hother := hpayload.1
    simp only [List.mem_cons, List.not_mem_nil, or_false, not_or] at hother
    exact ⟨fun h => absurd h hother.2.1, fun h => absurd h hother.2.2.1,
      fun h => absurd h hother.2.2.2⟩

/-- The command lines of the list at a pointer, when it is to be that of some modules. -/
theorem exists_modulesOf (hp : Placed sym mem₀ start tags) (h : ∃ t ∈ tags, t.type = 3) :
    ∃ m ms, modulesOf tags = m :: ms ∧ m.cmdline ≠ [] := by
  obtain ⟨t, ht, htype⟩ := h
  obtain ⟨m, rfl⟩ := (hp.cases ht).2.1 htype
  have hmem := mem_modulesOf ht
  have hcmdline := modulesOf_cmdline hp.block.tags
  generalize modulesOf tags = ms at hmem hcmdline ⊢
  cases ms with
  | nil => cases hmem
  | cons m' ms => exact ⟨m', ms, rfl, hcmdline m' List.mem_cons_self⟩

/-- **Modules do not survive**: the command line of the first is empty, or there is none. -/
theorem Parsed.not_survives (h : Parsed sym mem₀ seen mem b) (hp : Placed sym mem₀ start tags)
    (hb : b ≤ dataEnd sym.bootinfoData tags) (hmodule : ∃ t ∈ tags, t.type = 3)
    (hrun : relocate sym fuel mem = .ok mem') : ¬ Survives sym tags mem' := by
  intro hsurvives
  have hstruct_end := hp.struct_end
  have hdata_end := hp.data_end
  have hstruct_data := hp.struct_data
  have hle := h.le
  have hmodules := hsurvives.modules
  obtain ⟨m, ms, hlist, hne⟩ := exists_modulesOf hp hmodule
  rw [hlist] at hmodules
  obtain ⟨hpointer, -, -, hstring, -⟩ := hmodules
  by_cases hseen : ∃ t ∈ seen, t.type = 3
  · obtain ⟨a, S, hrec⟩ := h.records hseen
    obtain ⟨hfirst, hzero⟩ := hrec.relocate (by omega) hp.data_pos (by omega) hstruct_end
      (h.high_word (by decide) (by decide)) hrun
    rw [hfirst, physical_higherHalf] at hstring
    exact hstring.first_ne_zero hne hzero
  · -- the run ended before it
    have hnone : ∀ t ∈ seen, t.type ≠ 3 := fun t ht htype => hseen ⟨t, ht, htype⟩
    cases fuel with
    | zero => cases hrun
    | succ fuel =>
      rw [h.relocate_eq hp hnone (Nat.succ_pos fuel)] at hrun
      cases hrun
      refine hpointer ?_
      rw [ByteMemory.load_congr fun x hlo hhi => relocated_of_not_mem (by omega) (by omega),
        h.load_field _ (by decide) (by decide), (h.clean hnone).modules]

/-- A field that the relocation leaves. -/
theorem Parsed.load_relocated (h : Parsed sym mem₀ seen mem b) {off : ℕ}
    (hoff : off = 8 ∨ off = 16) :
    (relocated sym mem).load (sym.bootinfo + off) 8 = mem.load (sym.bootinfo + off) 4 := by
  rw [ByteMemory.load_congr fun x hlo hhi => relocated_of_not_mem (by omega) (by omega),
    h.load_field _ (by omega) (by omega)]

/-- **The command line that was copied** is found behind the relocation. -/
theorem Parsed.cmdline_relocated (h : Parsed sym mem₀ seen mem b)
    (hp : Placed sym mem₀ start tags) (hb : b ≤ dataEnd sym.bootinfoData tags)
    (hclean : Clean sym seen mem b) (hs : .cmdline s ∈ seen) :
    (relocated sym mem).load sym.bootinfo 8 ≠ higherHalf ∧
      IsString (relocated sym mem) (physical ((relocated sym mem).load sym.bootinfo 8)) s := by
  have hdata_end := hp.data_end
  have hdata_pos := hp.data_pos
  have hstruct_data := hp.struct_data
  obtain ⟨hlo, hhi, hstring⟩ := hclean.cmdline.some s hs
  have hfield : mem.load sym.bootinfo 8 = mem.load sym.bootinfo 4 :=
    h.load_field 0 (by decide) (by decide)
  rw [load_relocated_cmdline hfield (by omega), physical_higherHalf]
  refine ⟨by omega, hstring.congr ?_⟩
  intro i hi
  exact relocated_of_not_mem (by omega) (by omega)

/-- **The memory map that was copied** is found behind the relocation. -/
theorem Parsed.memMap_relocated (h : Parsed sym mem₀ seen mem b)
    (hp : Placed sym mem₀ start tags) (hb : b ≤ dataEnd sym.bootinfoData tags)
    (hclean : Clean sym seen mem b) {es : List MemMapEntry} (hne : es ≠ [])
    (hes : .memMap es ∈ seen) :
    (relocated sym mem).load (sym.bootinfo + 16) 8 = es.length ∧
      SegmentsAt (relocated sym mem)
        (physical ((relocated sym mem).load (sym.bootinfo + 24) 8)) es := by
  have hdata_end := hp.data_end
  have hstruct_data := hp.struct_data
  have hpos : 0 < es.length := List.length_pos_iff.mpr hne
  obtain ⟨hlen, hlo, hhi, hseg⟩ := hclean.memMap.some es hes
  have hfield := h.load_field 24 (by decide) (by decide)
  rw [h.load_relocated (Or.inr rfl), load_relocated_segments hfield (by omega),
    physical_higherHalf]
  refine ⟨hlen, hseg.congr ?_⟩
  intro x hx hx'
  exact relocated_of_not_mem (by omega) (by omega)

/-- **Without modules** all tags survive, unless one that the kernel needs was not visited. -/
theorem Parsed.survives_iff (h : Parsed sym mem₀ seen mem b) (hp : Placed sym mem₀ start tags)
    (hb : b ≤ dataEnd sym.bootinfoData tags) (hnone : ∀ t ∈ tags, t.type ≠ 3)
    (htags : tags = seen ++ ts) :
    Survives sym tags (relocated sym mem) ↔ ∀ t ∈ ts, t.type ∉ [1, 6] := by
  have hseen : ∀ t ∈ seen, t ∈ tags := fun t ht => htags ▸ List.mem_append_left _ ht
  have hrest : ∀ t ∈ ts, t ∈ tags := fun t ht => htags ▸ List.mem_append_right _ ht
  have hclean := h.clean fun t ht => hnone t (hseen t ht)
  have hsingle := hp.single
  rw [htags, List.pairwise_append] at hsingle
  constructor
  · intro hsurvives t ht htype
    simp only [List.mem_cons, List.not_mem_nil, or_false] at htype
    rcases htype with hone | hsix
    · obtain ⟨s, rfl⟩ := (hp.cases (hrest t ht)).1 hone
      have hunseen : ∀ t' ∈ seen, t'.type ≠ 1 := by
        intro t' ht' htype'
        exact hsingle.2.2 t' ht' _ ht (Or.inl htype') (hone.trans htype'.symm)
      refine (hsurvives.cmdline s (hrest _ ht)).1 ?_
      have hfield : mem.load sym.bootinfo 8 = 0 :=
        (h.load_field 0 (by decide) (by decide)).trans (hclean.cmdline.none hunseen)
      rw [load_relocated_cmdline hfield (by decide), Nat.zero_add]
    · obtain ⟨es, rfl, hne⟩ := (hp.cases (hrest t ht)).2.2 hsix
      have hunseen : ∀ t' ∈ seen, t'.type ≠ 6 := by
        intro t' ht' htype'
        exact hsingle.2.2 t' ht' _ ht (Or.inr htype') (hsix.trans htype'.symm)
      have hlen := (hsurvives.memMap es (hrest _ ht)).1
      rw [h.load_relocated (Or.inr rfl), hclean.memMap.none hunseen] at hlen
      exact hne (List.length_eq_zero_iff.mp hlen.symm)
  · intro hunneeded
    -- what is needed was visited
    have hneeded : ∀ t ∈ tags, t.type ∈ [1, 6] → t ∈ seen := by
      intro t ht htype
      rw [htags] at ht
      rcases List.mem_append.mp ht with ht | ht
      · exact ht
      · exact absurd htype (hunneeded t ht)
    refine ⟨?_, ?_, ?_⟩
    · intro s hs
      exact h.cmdline_relocated hp hb hclean (hneeded _ hs (by simp [Tag.type]))
    · rw [modulesOf_eq_nil hnone, h.load_relocated (Or.inl rfl), hclean.modules]
      rfl
    · intro es hes
      obtain ⟨es', heq, hne⟩ := (hp.cases hes).2.2 rfl
      cases heq
      exact h.memMap_relocated hp hb hclean hne (hneeded _ hes (by simp [Tag.type]))

/-- The run of both routines. -/
theorem bootInfo_eq_ok (hrun : bootInfo sym fuel mem start = .ok mem') :
    ∃ r, initBootinfo sym fuel mem start = .ok r ∧ relocate sym fuel r.1 = .ok mem' := by
  unfold bootInfo at hrun
  exact Except.bind_eq_ok_iff.mp hrun

/-- A block with a module does not survive. -/
theorem Placed.not_survivesDecoding (hp : Placed sym mem start tags)
    (hmodule : ∃ t ∈ tags, t.type = 3) : ¬ SurvivesDecoding sym mem start tags := by
  rintro ⟨n, mem', hrun, hsurvives⟩
  obtain ⟨r, hinit, hrelocate⟩ := bootInfo_eq_ok (hrun n le_rfl)
  obtain ⟨b', hb', hparsed⟩ := hp.initBootinfo_spec.1 n r hinit
  exact hparsed.not_survives hp hb' hmodule hrelocate hsurvives

/-- **Boot information survives decoding** exactly when there are no modules, and the command
line and the memory map are not behind the tag where the signed comparison ends the run. -/
theorem survivesDecoding_iff (hp : Placed sym mem start tags) :
    SurvivesDecoding sym mem start tags ↔ (∀ t ∈ tags, t.type ≠ 3) ∧
      ∀ t ∈ tags.drop (visited start (blockSize tags) [] tags).length, t.type ∉ [1, 6] := by
  have htags := (visited_append start (blockSize tags) [] tags).symm
  constructor
  · intro hsurvives
    have hnone : ∀ t ∈ tags, t.type ≠ 3 := by
      intro t ht htype
      exact hp.not_survivesDecoding ⟨t, ht, htype⟩ hsurvives
    refine ⟨hnone, ?_⟩
    obtain ⟨n, mem', hrun, hsurvives⟩ := hsurvives
    obtain ⟨r, hinit, hrelocate⟩ := bootInfo_eq_ok (hrun (n + 1) (Nat.le_succ n))
    obtain ⟨b', hb', hparsed⟩ := hp.initBootinfo_spec.1 (n + 1) r hinit
    have hseen : ∀ t ∈ visited start (blockSize tags) [] tags, t.type ≠ 3 :=
      fun t ht => hnone t (htags ▸ List.mem_append_left _ ht)
    rw [hparsed.relocate_eq hp hseen (Nat.succ_pos n)] at hrelocate
    cases hrelocate
    exact (hparsed.survives_iff hp hb' hnone htags).mp hsurvives
  · rintro ⟨hnone, hunneeded⟩
    obtain ⟨r, hinit⟩ := hp.initBootinfo_spec.2 hnone
    obtain ⟨b', hb', hparsed⟩ := hp.initBootinfo_spec.1 _ r (hinit _ (Nat.lt_succ_self _))
    have hseen : ∀ t ∈ visited start (blockSize tags) [] tags, t.type ≠ 3 :=
      fun t ht => hnone t (htags ▸ List.mem_append_left _ ht)
    refine ⟨tags.length + 1, relocated sym r.1, ?_, ?_⟩
    · intro fuel hfuel
      unfold bootInfo
      rw [hinit fuel hfuel]
      exact hparsed.relocate_eq hp hseen (by omega)
    · exact (hparsed.survives_iff hp hb' hnone htags).mpr hunneeded

/-! ## Two blocks -/

/-- The bytes of a block at `start`, in a memory that is clear otherwise. -/
def blockAt (start : ℕ) (bytes : List (BitVec 8)) : ByteMemory := fun a =>
  if a < start then 0 else bytes.getD (a - start) 0

/-- `_bootinfo` at 1 MiB. -/
def symbolsLow : BootSymbols where
  bootinfo := 0x100000
  bootinfoData := 0x101000

/-- A block with a command line and a memory map of one entry. -/
def plainTags : List Tag := [.cmdline [0x61, 0x62], .memMap [⟨0x100000, 0x7ee0000, 1⟩]]

/-- Its bytes. -/
def plainBytes : List (BitVec 8) :=
  [72, 0, 0, 0, 0, 0, 0, 0,
    1, 0, 0, 0, 11, 0, 0, 0, 0x61, 0x62, 0, 0, 0, 0, 0, 0,
    6, 0, 0, 0, 40, 0, 0, 0, 24, 0, 0, 0, 0, 0, 0, 0,
    0, 0, 0x10, 0, 0, 0, 0, 0, 0, 0, 0xee, 0x07, 0, 0, 0, 0, 1, 0, 0, 0, 0, 0, 0, 0,
    0, 0, 0, 0, 8, 0, 0, 0]

/-- A block with a module that is called `m`. -/
def moduleTags : List Tag := [.module ⟨0x300000, 0x301000, [0x6d]⟩]

/-- Its bytes. -/
def moduleBytes : List (BitVec 8) :=
  [40, 0, 0, 0, 0, 0, 0, 0,
    3, 0, 0, 0, 18, 0, 0, 0, 0, 0, 0x30, 0, 0, 0x10, 0x30, 0, 0x6d, 0, 0, 0, 0, 0, 0, 0,
    0, 0, 0, 0, 8, 0, 0, 0]

/-- The kernel with a block at 2 MiB. -/
theorem placed_blockAt {bytes : List (BitVec 8)}
    (hblock : IsBlock (blockAt 0x200000 bytes) 0x200000 tags)
    (hsingle : tags.Pairwise fun t t' => t.type = 1 ∨ t.type = 6 → t'.type ≠ t.type)
    (hsize : 0x200000 + blockSize tags ≤ 2 ^ 32)
    (hdata : dataEnd symbolsLow.bootinfoData tags ≤ 0x200000) :
    Placed symbolsLow (blockAt 0x200000 bytes) 0x200000 tags where
  block := hblock
  single := hsingle
  in_memory := hsize
  clear := by
    intro x hlo hhi
    have hend : symbolsLow.bootinfo + 80 ≤ 0x200000 := by decide
    exact if_pos (by omega)
  struct_end := by decide
  data_pos := by decide
  data_end := hdata.trans (by decide)
  struct_data := Or.inl (by decide)
  struct_block := Or.inl (by decide)
  data_block := Or.inl hdata

theorem placed_plain : Placed symbolsLow (blockAt 0x200000 plainBytes) 0x200000 plainTags := by
  refine placed_blockAt ⟨by decide, by decide, ?_⟩ (by decide) (by decide) (by decide)
  refine ⟨by decide, by decide, ⟨by decide, by decide, ?_⟩, by decide, by decide,
    ⟨by decide, by decide, ?_⟩, by decide, by decide⟩
  · decide
  · exact ⟨by decide, by decide, by decide, trivial⟩

theorem placed_module : Placed symbolsLow (blockAt 0x200000 moduleBytes) 0x200000 moduleTags := by
  refine placed_blockAt ⟨by decide, by decide, ?_⟩ (by decide) (by decide) (by decide)
  refine ⟨by decide, by decide, ⟨by decide, by decide, by decide, by decide, ?_⟩, by decide,
    by decide⟩
  decide

/-- A command line and a memory map survive. -/
theorem survivesDecoding_plain :
    SurvivesDecoding symbolsLow (blockAt 0x200000 plainBytes) 0x200000 plainTags := by
  refine (survivesDecoding_iff placed_plain).mpr ⟨by decide, ?_⟩
  rw [visited_eq_self (by decide) (List.nil_append plainTags).symm, List.drop_length]
  exact fun _ ht => nomatch ht

/-- A module does not. -/
theorem not_survivesDecoding_module : ¬ ∀ (sym : BootSymbols) (mem : ByteMemory) (start : ℕ)
    (tags : List Tag), Placed sym mem start tags → SurvivesDecoding sym mem start tags := by
  intro hall
  exact placed_module.not_survivesDecoding ⟨_, List.mem_cons_self, rfl⟩
    (hall _ _ _ _ placed_module)

end Mimik.Boot
