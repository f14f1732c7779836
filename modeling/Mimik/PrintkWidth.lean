/-
# Widths of strings (`log/printk.c`)

The digits of a width are read one after the other by the switch that also knows the flag of
leading zeros, which is the digit 0.  So a width ends at its first 0: what follows is read
as a number of zeros, for which a string has no use (`width_means_iff`).
-/
import Mimik.PrintkNumbers

namespace Mimik.Printk

open Mem

/-! ## Widths of strings -/

/-- `printk` of a percent sign, the numeral `w` and an `s` prints the first `W` bytes at `str`. -/
def WidthMeans (m : Memory) (w : List Char8) (W : ℕ) (str : BitVec 64) : Prop :=
  ∃ bound, ∀ fuel, bound ≤ fuel →
    printk m fuel (Str.ofList (ascii '%' :: (w ++ [ascii 's']))) [str] =
      .ok ((List.range W).map fun i => m (str + BitVec.ofNat 64 i))

section Width

variable {m : Memory} {w : List Char8} {f : PrintFlags} {str : BitVec 64} {fuel W : ℕ}

/-- The bytes that the loop of `print_string` puts. -/
theorem putChars_eq (m : Memory) (length : ℕ) (str : BitVec 64) :
    putChars m length str = (List.range length).map fun i => m (str + BitVec.ofNat 64 i) := by
  induction length generalizing str with
  | zero => rfl
  | succ length ih =>
    rw [putChars, ih, List.range_succ_eq_map, List.map_cons, List.map_map, BitVec.add_zero]
    congr 1
    refine List.map_congr_left fun i _ => ?_
    rw [Function.comp_apply, BitVec.add_assoc, ← BitVec.ofNat_add, Nat.add_comm]

/-- What `puts` has put is not NUL, and is followed by a NUL byte. -/
theorem puts_bytes {cs : List Char8} (h : puts m fuel str = .ok cs) :
    m (str + BitVec.ofNat 64 cs.length) = 0 ∧ ∀ i < cs.length, m (str + BitVec.ofNat 64 i) ≠ 0 := by
  induction fuel generalizing str cs with
  | zero => cases h
  | succ fuel ih =>
    rw [puts] at h
    split at h
    next hnul =>
      cases h
      exact ⟨by rwa [List.length_nil, BitVec.add_zero], fun i hi => absurd hi (Nat.not_lt_zero i)⟩
    next hchar =>
      obtain ⟨cs', hcs', hok⟩ := Except.bind_eq_ok_iff.mp h
      cases hok
      obtain ⟨hnul, hchars⟩ := ih hcs'
      have hshift : ∀ i, str + 1#64 + BitVec.ofNat 64 i = str + BitVec.ofNat 64 (i + 1) := by
        intro i
        rw [BitVec.add_assoc, ← BitVec.ofNat_add, Nat.add_comm]
      refine ⟨by rw [List.length_cons, ← hshift]; exact hnul, fun i hi => ?_⟩
      cases i with
      | zero => rwa [BitVec.add_zero]
      | succ i =>
        rw [← hshift]
        exact hchars i (Nat.lt_of_succ_lt_succ hi)

/-- So it is shorter than the address space. -/
theorem puts_length {cs : List Char8} (h : puts m fuel str = .ok cs) : cs.length < 2 ^ 64 := by
  obtain ⟨hnul, hchars⟩ := puts_bytes h
  by_contra hge
  have hwrap : BitVec.ofNat 64 (cs.length - 2 ^ 64) = BitVec.ofNat 64 cs.length := by
    apply BitVec.eq_of_toNat_eq
    rw [BitVec.toNat_ofNat, BitVec.toNat_ofNat]
    omega
  exact hchars (cs.length - 2 ^ 64) (by omega) (by rw [hwrap]; exact hnul)

/-- Behind a `0` digits go to the leading zeros. -/
theorem scan_zeros (hw : ∀ c ∈ w, isDigit c = true) (rest : List Char8) (ap : List (BitVec 64)) :
    ∃ zeros digits, scan m fuel (.directive f true) ap (w ++ rest) =
      scan m fuel (.directive { f with leadingZeros := zeros } digits) ap rest := by
  induction w generalizing f with
  | nil => exact ⟨f.leadingZeros, true, rfl⟩
  | cons c w ih =>
    have hmod : modifier f true c =
        some ({ f with leadingZeros := pushDigit f.leadingZeros c }, true) := by
      rw [modifier, hw c List.mem_cons_self]
      rfl
    rw [List.cons_append, scan, hmod]
    exact ih fun c hc => hw c (List.mem_cons_of_mem _ hc)

/-- **The width is read** up to the first `0`. -/
theorem scan_width (hw : ∀ c ∈ w, isDigit c = true) (rest : List Char8) (ap : List (BitVec 64)) :
    ∃ zeros digits, scan m fuel (.directive f false) ap (w ++ rest) =
      scan m fuel (.directive { f with
        leadingZeros := zeros
        stringLength := (w.takeWhile (· ≠ ascii '0')).foldl pushDigit f.stringLength } digits)
        ap rest := by
  induction w generalizing f with
  | nil => exact ⟨f.leadingZeros, false, rfl⟩
  | cons c w ih =>
    have hrest : ∀ c ∈ w, isDigit c = true := fun c hc => hw c (List.mem_cons_of_mem _ hc)
    have hdigit := hw c List.mem_cons_self
    have hl : c ≠ ascii 'l' := by
      rintro rfl
      cases hdigit
    have hh : c ≠ ascii 'h' := by
      rintro rfl
      cases hdigit
    by_cases hzero : c = ascii '0'
    · have hmod : modifier f false c = some (f, true) := by
        rw [modifier, if_neg (by simp), if_neg hl, if_neg hh, if_pos hzero]
      rw [List.cons_append, scan, hmod, List.takeWhile_cons_of_neg (by simp [hzero])]
      exact scan_zeros hrest rest ap
    · have hmod : modifier f false c =
          some ({ f with stringLength := pushDigit f.stringLength c }, false) := by
        rw [modifier, if_neg (by simp), if_neg hl, if_neg hh, if_neg hzero, if_pos hdigit]
      rw [List.cons_append, scan, hmod, List.takeWhile_cons_of_pos (by simp [hzero])]
      exact ih hrest

/-- **What a width prints.** -/
theorem printk_width (hw : ∀ c ∈ w, isDigit c = true) (hfuel : w.length + 2 < fuel) :
    printk m fuel (Str.ofList (ascii '%' :: (w ++ [ascii 's']))) [str] =
      printString m fuel ((w.takeWhile (· ≠ ascii '0')).foldl pushDigit 0) str := by
  have hnul : ∀ c ∈ ascii '%' :: (w ++ [ascii 's']), c ≠ 0 := by
    rintro c hc rfl
    rcases List.mem_cons.mp hc with hc | hc
    · cases hc
    · rcases List.mem_append.mp hc with hc | hc
      · cases hw 0 hc
      · cases List.mem_singleton.mp hc
  obtain ⟨zeros, digits, hscan⟩ := scan_width (m := m) (f := .init) hw [ascii 's'] [str]
  have hend : ∀ f digits, scan m fuel (.directive f digits) [str] [ascii 's'] =
      printString m fuel f.stringLength str := by
    intro f digits
    have hmod : modifier f digits (ascii 's') = none := by
      cases digits <;> rfl
    rw [scan, hmod]
    show (withArg [str] (printString m fuel f.stringLength) >>= fun r => _) = _
    rw [withArg]
    cases printString m fuel f.stringLength str with
    | error e => rfl
    | ok cs => exact congrArg Except.ok (List.append_nil cs)
  rw [printk_eq hnul (by simpa using hfuel), scan, if_pos rfl, hscan, hend]
  rfl

/-! ## The number that is read -/

/-- A numeral is made of digits. -/
theorem isDigit_of_parseFrom {acc k : ℕ} (h : parseFrom decimalValue 10 acc w = some k) :
    ∀ c ∈ w, isDigit c = true := by
  induction w generalizing acc with
  | nil => exact fun c hc => absurd hc List.not_mem_nil
  | cons d w ih =>
    intro c hc
    rw [parseFrom, decimalValue] at h
    by_cases hd : isDigit d = true
    · rw [if_pos hd, Option.bind_some] at h
      rcases List.mem_cons.mp hc with rfl | hc
      · exact hd
      · exact ih h c hc
    · rw [if_neg hd] at h
      cases h

/-- The value of one more digit. -/
theorem parseFrom_cons {acc : ℕ} {c : Char8} (hc : isDigit c = true) :
    parseFrom decimalValue 10 acc (c :: w) =
      parseFrom decimalValue 10 (acc * 10 + (c.toNat - 48)) w := by
  rw [parseFrom, decimalValue, if_pos hc, Option.bind_some]

/-- The flags keep a number modulo `2 ^ 64`. -/
theorem foldl_pushDigit {acc k : ℕ} (h : parseFrom decimalValue 10 acc w = some k) :
    w.foldl pushDigit (acc % 2 ^ 64) = k % 2 ^ 64 := by
  induction w generalizing acc with
  | nil =>
    rw [parseFrom, Option.some.injEq] at h
    rw [List.foldl_nil, h]
  | cons c w ih =>
    rw [parseFrom_cons (isDigit_of_parseFrom h c List.mem_cons_self)] at h
    rw [List.foldl_cons, ← ih h]
    congr 1
    rw [pushDigit, wrap64, wrap64]
    omega

/-- More digits make no smaller number. -/
theorem le_of_parseFrom {acc k : ℕ} (h : parseFrom decimalValue 10 acc w = some k) : acc ≤ k := by
  induction w generalizing acc with
  | nil =>
    rw [parseFrom, Option.some.injEq] at h
    exact h.le
  | cons c w ih =>
    rw [parseFrom_cons (isDigit_of_parseFrom h c List.mem_cons_self)] at h
    have hle := ih h
    omega

/-- The digits before the first `0` denote a smaller number, when there is one. -/
theorem exists_prefix {acc k : ℕ} (h : parseFrom decimalValue 10 acc w = some k) :
    ∃ k', parseFrom decimalValue 10 acc (w.takeWhile (· ≠ ascii '0')) = some k' ∧
      (ascii '0' ∉ w → k' = k) ∧ (ascii '0' ∈ w → 10 * k' ≤ k) ∧
      (w.head? ≠ some (ascii '0') → w ≠ [] → 0 < k') := by
  induction w generalizing acc with
  | nil => exact ⟨k, h, fun _ => rfl, fun h => absurd h List.not_mem_nil, fun _ hne =>
    absurd rfl hne⟩
  | cons c w ih =>
    have hdigit := isDigit_of_parseFrom h c List.mem_cons_self
    rw [parseFrom_cons hdigit] at h
    by_cases hzero : c = ascii '0'
    · rw [List.takeWhile_cons_of_neg (by simp [hzero])]
      refine ⟨acc, rfl, fun hnot => absurd (hzero ▸ List.mem_cons_self) hnot, fun _ => ?_, ?_⟩
      · have hle := le_of_parseFrom h
        omega
      · exact fun hhead _ => absurd (by rw [hzero]; rfl) hhead
    · obtain ⟨k', hk', hsame, hless, hpos⟩ := ih h
      rw [List.takeWhile_cons_of_pos (by simp [hzero]), parseFrom_cons hdigit]
      have hmem : ascii '0' ∈ c :: w ↔ ascii '0' ∈ w := by
        rw [List.mem_cons]
        exact or_iff_right fun heq => hzero heq.symm
      rw [hmem]
      refine ⟨k', hk', hsame, hless, fun _ _ => ?_⟩
      have hle := le_of_parseFrom hk'
      have hne : c.toNat ≠ 48 := fun heq => hzero (BitVec.eq_of_toNat_eq heq)
      simp only [isDigit, Bool.and_eq_true, decide_eq_true_eq] at hdigit
      omega

/-- **Widths mean what they say** exactly when they have no digit 0. -/
theorem width_means_iff (m : Memory) (str : BitVec 64) (hW : parse decimalValue 10 w = some W)
    (hpos : 1 ≤ W) (hhead : w.head? ≠ some (ascii '0')) :
    WidthMeans m w W str ↔ ascii '0' ∉ w ∧ W < 2 ^ 64 := by
  have hne : w ≠ [] := by
    rintro rfl
    cases hW
    omega
  obtain ⟨k, hk, hsame, hless, hprefix⟩ := exists_prefix hW
  have hkpos : 0 < k := hprefix hhead hne
  have hlength : (w.takeWhile (· ≠ ascii '0')).foldl pushDigit 0 = k % 2 ^ 64 := foldl_pushDigit hk
  have hrun : ∀ fuel, w.length + 2 < fuel →
      printk m fuel (Str.ofList (ascii '%' :: (w ++ [ascii 's']))) [str] =
        printString m fuel (k % 2 ^ 64) str := fun fuel hfuel => by
    rw [printk_width (isDigit_of_parseFrom hW) hfuel, hlength]
  constructor
  · rintro ⟨bound, hmeans⟩
    have hout := hmeans (bound + w.length + 3) (by omega)
    rw [hrun _ (by omega), printString] at hout
    have hlt : W < 2 ^ 64 := by
      split at hout
      next =>
        have hputs := puts_length hout
        rwa [List.length_map, List.length_range] at hputs
      next =>
        have hchars := congrArg List.length (Except.ok.inj hout)
        rw [putChars_eq, List.length_map, List.length_map, List.length_range,
          List.length_range] at hchars
        omega
    refine ⟨fun hzero => ?_, hlt⟩
    have hle := hless hzero
    have hmod : k % 2 ^ 64 = k := Nat.mod_eq_of_lt (by omega)
    rw [hmod, if_neg (by omega)] at hout
    have hchars := congrArg List.length (Except.ok.inj hout)
    rw [putChars_eq, List.length_map, List.length_map, List.length_range,
      List.length_range] at hchars
    omega
  · rintro ⟨hzero, hlt⟩
    refine ⟨w.length + 3, fun fuel hfuel => ?_⟩
    rw [hrun fuel (by omega), hsame hzero, Nat.mod_eq_of_lt hlt, printString, if_neg (by omega),
      putChars_eq]
    rfl

/-- The width 12. -/
theorem width_means_twelve : WidthMeans (fun _ => 0x41#8) [ascii '1', ascii '2'] 12 0x1000 :=
  (width_means_iff _ _ rfl (by decide) (by decide)).mpr ⟨by decide, by decide⟩

/-- **With the width 10 one byte is printed.** -/
theorem not_width_means : ¬ WidthMeans (fun _ => 0x41#8) [ascii '1', ascii '0'] 10 0x1000 := by
  rintro ⟨bound, hmeans⟩
  have hout := hmeans (bound + 5) (by omega)
  rw [printk_width (by decide) (by show 2 + 2 < bound + 5; omega)] at hout
  have hone : printString (fun _ => 0x41#8) (bound + 5)
      (([ascii '1', ascii '0'].takeWhile (· ≠ ascii '0')).foldl pushDigit 0) 0x1000 =
      .ok [0x41#8] := rfl
  rw [hone, Except.ok.injEq] at hout
  exact absurd (congrArg List.length hout) (by simp)

end Width

end Mimik.Printk
