/-
# What a hostile archive can do

Nothing in the headers is trusted, and nothing holds the scan back: `initfs_lookup` compares
the address of a header with `virt_end`, but neither the fields of the header nor the file,
and the address of the next header may wrap around.  It stays inside the archive if and only
if no header that it comes to is cut off and no file that it returns is too long
(`lookup_inside_iff`).
-/
import Mimik.InitfsArchive
import Mimik.VmKernel

namespace Mimik.Ustar

/-- The addresses below `virt_end` that the scan for `s` comes to: from a header it goes on
if the header passes the checks and has another name. -/
inductive Scanned (fs : Initfs) (m : ByteMemory) (s : List Char8) : ℕ → Prop where
  | start : fs.virtStart < fs.virtEnd → Scanned fs m s fs.virtStart
  | next {hdr : ℕ} : Scanned fs m s hdr → HeaderOk m hdr → ¬ NameIs m hdr s →
      nextHeader hdr (sizeIn m hdr) < fs.virtEnd → Scanned fs m s (nextHeader hdr (sizeIn m hdr))

/-- A file with the name `s` ends in the archive. -/
def FileIn (fs : Initfs) (m : ByteMemory) (s : List Char8) (hdr : ℕ) : Prop :=
  HeaderOk m hdr → NameIs m hdr s → s ≠ [] → m (typeFlag hdr) = typeFlagFile →
    hdr + sizeofHeader + sizeIn m hdr ≤ fs.virtEnd

/-- The lookup ends, it has read nothing outside the archive, and the file that it returns
lies in the archive. -/
def StaysInside (fs : Initfs) : Except Fault (Status × ℕ × ℕ) → Prop
  | .ok (res, ptr, sz) => res = success → fs.virtStart ≤ ptr ∧ ptr + sz ≤ fs.virtEnd
  | .error (.assertion _) => True
  | .error _ => False

section Safety

variable {fs : Initfs} {m : ByteMemory} {path : Str} {s : List Char8}
  {a hdr n filePtr fileSz fuel sz : ℕ}

/-- The scan advances, or the address wraps around. -/
theorem nextHeader_lt_or_le (hhdr : hdr < 2 ^ 64) (hsz : sz < 2 ^ 33) :
    nextHeader hdr sz < 2 ^ 34 ∨ hdr + sizeofHeader ≤ nextHeader hdr sz := by
  have hval : wrap64 (hdr + 512 + sz) = hdr + 512 + sz ∨
    wrap64 (hdr + 512 + sz) < 2 ^ 33 + 512 := by
    rw [wrap64]
    omega
  rw [nextHeader, alignUp, sizeofHeader]
  rcases hval with hval | hval
  · have hup : wrap64 (wrap64 (hdr + 512 + sz) + (512 - 1)) = hdr + 512 + sz + 511 ∨
        wrap64 (wrap64 (hdr + 512 + sz) + (512 - 1)) < 2 ^ 33 + 1024 := by
      rw [hval, wrap64]
      omega
    omega
  · have hup : wrap64 (wrap64 (hdr + 512 + sz) + (512 - 1)) < 2 ^ 33 + 1024 := by
      rw [wrap64_of_lt (by omega)]
      omega
    omega

/-- Addresses of the kernel are high. -/
theorem kernel_start (h : Vm.isKvaddr fs.virtStart = true) : 2 ^ 47 ≤ fs.virtStart :=
  le_trans (by decide) (of_decide_eq_true h)

theorem Scanned.lt (h : Scanned fs m s hdr) : hdr < fs.virtEnd := by
  cases h with
  | start hlt => exact hlt
  | next _ _ _ hlt => exact hlt

/-- The lookup of a file stays inside when all of the file does. -/
theorem staysInside_file (hstart : fs.virtStart ≤ hdr) (hend : fs.virtEnd < 2 ^ 64)
    (hfile : hdr + sizeofHeader + sz ≤ fs.virtEnd) :
    StaysInside fs (.ok (success, wrap64 (hdr + sizeofHeader), sz)) := by
  intro _
  rw [wrap64_of_lt (by omega)]
  omega

/-- **The scan stays inside** when every header that it comes to lies in the archive. -/
theorem staysInside_of_scanned (hkernel : Vm.isKvaddr fs.virtStart = true)
    (hend : fs.virtEnd < 2 ^ 64) (hpath : Holds path s) (hfuel : fs.virtEnd ≤ fuel)
    (hs : s.length < fuel)
    (hin : ∀ hdr, Scanned fs m s hdr → HeaderIn fs m hdr ∧ FileIn fs m s hdr)
    (hscanned : Scanned fs m s hdr) (hn : fs.virtEnd - hdr < n) :
    StaysInside fs (lookupFrom fs m path filePtr fileSz fuel n hdr) := by
  induction n generalizing hdr with
  | zero => exact absurd hn (Nat.not_lt_zero _)
  | succ n ih =>
    obtain ⟨hheader, hfile⟩ := hin hdr hscanned
    have hlt := hscanned.lt
    rw [lookupFrom_round hheader hlt hpath hfuel hs]
    by_cases hmagic : MagicOk m hdr
    · rw [if_neg (not_not.mpr hmagic)]
      by_cases hversion : VersionOk m hdr
      · rw [if_neg (not_not.mpr hversion)]
        by_cases hsize : SizeOk m hdr
        · rw [if_neg (not_not.mpr hsize)]
          by_cases hname : NameIs m hdr s
          · rw [if_neg (not_not.mpr hname)]
            by_cases hnil : s = []
            · rw [if_pos hnil]
              trivial
            · rw [if_neg hnil]
              split
              next htype =>
                exact staysInside_file hheader.start hend
                  (hfile ⟨hmagic, hversion, hsize⟩ hname hnil htype)
              next => trivial
          · rw [if_pos hname]
            by_cases hnext : nextHeader hdr (sizeIn m hdr) < fs.virtEnd
            · have hscanned' := Scanned.next hscanned ⟨hmagic, hversion, hsize⟩ hname hnext
              -- an address that has wrapped around lies below the archive
              have hstart := (hin _ hscanned').1.start
              have hhigh := kernel_start hkernel
              rcases nextHeader_lt_or_le (hlt.trans hend) (sizeIn_lt hsize) with hwrap | hle
              · omega
              · rw [sizeofHeader] at hle
                exact ih hscanned' (by omega)
            · obtain ⟨n, rfl⟩ := Nat.exists_eq_add_of_le' (show 1 ≤ n by omega)
              rw [lookupFrom, if_neg hnext]
              intro hcontra
              exact absurd hcontra (by decide)
        · rw [if_pos hsize]
          trivial
      · rw [if_pos hversion]
        trivial
    · rw [if_pos hmagic]
      trivial

/-- A scan that stays inside has read of the header what lies inside. -/
theorem headerIn_of_staysInside (hlt : hdr < fs.virtEnd) (hfuel : fs.virtEnd ≤ fuel)
    (hstart : fs.virtStart ≤ hdr ∨ ustarString hdr < fs.virtStart)
    (h : StaysInside fs (lookupFrom fs m path filePtr fileSz fuel (n + 1) hdr)) :
    HeaderIn fs m hdr := by
  rw [lookupFrom, if_pos hlt] at h
  have hmagicIn : MagicIn fs m hdr := by
    by_contra hnot
    have hfails : strLength fuel (fs.pointer m (ustarString hdr)) = .error .outOfFuel ∨
        strLength fuel (fs.pointer m (ustarString hdr)) = .error (.wild "initfs") := by
      rcases hstart with hstart | hlow
      · apply strLengthFrom_outside
        intro j hj hnul
        exact hnot ⟨hstart, j, hj, hnul⟩
      · obtain ⟨fuel, rfl⟩ := Nat.exists_eq_add_of_le' (show 1 ≤ fuel by omega)
        have hread : fs.pointer m (ustarString hdr) 0 = .error (.wild "initfs") :=
          pointer_of_not_mem (.inl hlow)
        rw [strLength, strLengthFrom, hread]
        exact .inr rfl
    rw [strEqual] at h
    rcases hfails with hfails | hfails
    · rw [hfails] at h
      exact h
    · rw [hfails] at h
      exact h
  refine ⟨hmagicIn, fun hmagic => ?_⟩
  classical
  rw [magic_eq hmagicIn hfuel, decide_eq_true hmagic] at h
  replace h : StaysInside fs (strNequalFrom _ _ 2 0 >>= _) := h
  have hzero : ∀ i < 2, Str.ofList (chars "00") i = .ok 48 := by decide
  have hle : fs.virtStart ≤ ustarVersion hdr := hmagicIn.start.trans (Nat.le_add_right hdr 263)
  by_cases hfirst : ustarVersion hdr < fs.virtEnd
  · refine ⟨hfirst, fun hone => ?_⟩
    by_contra hsecond
    have hread : fs.pointer m (ustarVersion hdr) 0 = .ok (m (ustarVersion hdr)) :=
      pointer_of_mem hle hfirst
    have hread' : fs.pointer m (ustarVersion hdr) (0 + 1) = .error (.wild "initfs") :=
      pointer_of_not_mem (.inr (not_lt.mp hsecond))
    rw [strNequalFrom, hread, hzero 0 (by omega), hone, strNequalFrom, hread'] at h
    exact h
  · have hread : fs.pointer m (ustarVersion hdr) 0 = .error (.wild "initfs") :=
      pointer_of_not_mem (.inr (not_lt.mp hfirst))
    rw [strNequalFrom, hread] at h
    exact absurd h id

/-- The scan that stays inside comes to headers that lie in the archive. -/
theorem scanned_of_staysInside (hkernel : Vm.isKvaddr fs.virtStart = true)
    (hend : fs.virtEnd < 2 ^ 64) (hpath : Holds path s) (hfuel : fs.virtEnd ≤ fuel)
    (hs : s.length < fuel)
    (h : StaysInside fs (lookupFrom fs m path filePtr fileSz fuel n fs.virtStart))
    (hscanned : Scanned fs m s hdr) :
    HeaderIn fs m hdr ∧ FileIn fs m s hdr ∧
      ∃ k, StaysInside fs (lookupFrom fs m path filePtr fileSz fuel (k + 1) hdr) := by
  have hhigh := kernel_start hkernel
  -- what holds of a header when the scan that comes to it stays inside
  have hcome : ∀ hdr k, hdr < fs.virtEnd → fs.virtStart ≤ hdr ∨ hdr < 2 ^ 34 →
      StaysInside fs (lookupFrom fs m path filePtr fileSz fuel k hdr) →
      HeaderIn fs m hdr ∧ FileIn fs m s hdr ∧
        ∃ k, StaysInside fs (lookupFrom fs m path filePtr fileSz fuel (k + 1) hdr) := by
    intro hdr k hlt hwhere hstays
    cases k with
    | zero => exact absurd hstays id
    | succ k =>
      have hheader := headerIn_of_staysInside hlt hfuel (hwhere.imp_right fun hlow => by
        rw [ustarString]
        omega) hstays
      refine ⟨hheader, fun hok hname hnil htype => ?_, k, hstays⟩
      rw [lookupFrom_round hheader hlt hpath hfuel hs, if_neg (not_not.mpr hok.magic),
        if_neg (not_not.mpr hok.version), if_neg (not_not.mpr hok.size), if_neg (not_not.mpr hname),
        if_neg hnil, if_pos htype] at hstays
      obtain ⟨hle, hfile⟩ := hstays rfl
      -- a pointer to the data that has wrapped around lies below the archive
      have hsum : wrap64 (hdr + sizeofHeader) = hdr + sizeofHeader := by
        apply wrap64_of_lt
        by_contra hwrap
        rw [wrap64, sizeofHeader] at hle
        rw [sizeofHeader] at hwrap
        omega
      rwa [hsum] at hfile
  induction hscanned with
  | start hlt => exact hcome _ _ hlt (.inl le_rfl) h
  | @next hdr hbefore hok hname hlt ih =>
    obtain ⟨hheader, -, k, hstays⟩ := ih
    rw [lookupFrom_round hheader hbefore.lt hpath hfuel hs, if_neg (not_not.mpr hok.magic),
      if_neg (not_not.mpr hok.version), if_neg (not_not.mpr hok.size), if_pos hname] at hstays
    refine hcome _ _ hlt ?_ hstays
    have hstart := hheader.start
    rcases nextHeader_lt_or_le (hbefore.lt.trans hend) (sizeIn_lt hok.size) with hwrap | hle
    · exact .inr hwrap
    · rw [sizeofHeader] at hle
      exact .inl (by omega)

/-- **When a hostile archive cannot lead the reader out.**  For any content of an archive in
kernel space and any path, `initfs_lookup` ends, reads nothing outside the archive and
returns no file that is not in it, if and only if, for a path that is short enough, every
header that the scan comes to lies in the archive, and so does the file that it finds. -/
theorem lookup_inside_iff (hkernel : Vm.isKvaddr fs.virtStart = true)
    (hend : fs.virtEnd < 2 ^ 64) (hpath : Holds path s) :
    (∃ fuel, StaysInside fs (initfsLookup fuel fs m path filePtr fileSz)) ↔
      (s.length < sizeofFileName →
        ∀ hdr, Scanned fs m s hdr → HeaderIn fs m hdr ∧ FileIn fs m s hdr) := by
  have hnull : fs.virtStart ≠ 0 := by
    have hhigh := kernel_start hkernel
    omega
  constructor
  · rintro ⟨fuel, hstays⟩ hshort hdr hscanned
    have hmore : StaysInside fs
        (initfsLookup (fuel + fs.virtEnd + s.length + 1) fs m path filePtr fileSz) := by
      rw [← (initfsLookup_approx (by omega)).eq_of_ne (x := initfsLookup fuel ..)]
      · exact hstays
      · intro hout
        rw [hout] at hstays
        exact hstays
    rw [initfsLookup_eq hnull hpath (by omega), if_pos hshort] at hmore
    obtain ⟨hheader, hfile, -⟩ :=
      scanned_of_staysInside hkernel hend hpath (by omega) (by omega) hmore hscanned
    exact ⟨hheader, hfile⟩
  · intro hin
    refine ⟨fs.virtEnd + s.length + 1, ?_⟩
    rw [initfsLookup_eq hnull hpath (by omega)]
    split
    next hshort =>
      by_cases hlt : fs.virtStart < fs.virtEnd
      · exact staysInside_of_scanned hkernel hend hpath (by omega) (by omega) (hin hshort)
          (.start hlt) (by omega)
      · rw [lookupFrom, if_neg hlt]
        intro hcontra
        exact absurd hcontra (by decide)
    next => trivial

end Safety

/-! ## Two archives -/

/-- The lookup of the file of the small archive stays inside. -/
theorem lookup_inside_small :
    ∃ fuel, StaysInside smallFs
      (initfsLookup fuel smallFs smallMemory (Str.ofList (chars "a")) 0 0) := by
  refine (lookup_inside_iff (by decide) (by decide) holds_small.1).mpr fun _ hdr hscanned => ?_
  obtain ⟨hheader, -, -⟩ := wellFormed_small.archive
  obtain rfl : hdr = smallFs.virtStart := by
    induction hscanned with
    | start => rfl
    | next _ _ hname _ ih =>
      subst ih
      exact absurd hheader.name hname
  refine ⟨hheader.headerIn le_rfl (by decide), fun _ _ _ htype => ?_⟩
  exact absurd htype (by decide)

/-- The small archive, cut off behind the header. -/
def cutFs : Initfs := { smallFs with virtEnd := 0xffff900000000200 }

/-- The small archive with the type that the lookup asks for. -/
def cutMemory : ByteMemory := fun a => if a = 0xffff90000000009c then 1 else smallMemory a

/-- The file that is returned lies behind the end of the archive. -/
theorem not_lookup_inside_cut : Vm.isKvaddr cutFs.virtStart = true ∧
    Holds (Str.ofList (chars "a")) (chars "a") ∧
    initfsLookup 8 cutFs cutMemory (Str.ofList (chars "a")) 0 0 =
      .ok (success, cutFs.virtEnd, 1) ∧
    ¬ ∃ fuel, StaysInside cutFs
      (initfsLookup fuel cutFs cutMemory (Str.ofList (chars "a")) 0 0) := by
  have hfound : initfsLookup 8 cutFs cutMemory (Str.ofList (chars "a")) 0 0 =
      .ok (success, cutFs.virtEnd, 1) := by
    decide +kernel
  refine ⟨by decide, holds_small.1, hfound, fun ⟨fuel, hstays⟩ => ?_⟩
  have hok : initfsLookup fuel cutFs cutMemory (Str.ofList (chars "a")) 0 0 =
      .ok (success, cutFs.virtEnd, 1) := by
    rcases le_total fuel 8 with hle | hle
    · rw [← hfound]
      refine (initfsLookup_approx hle).eq_of_ne fun hout => ?_
      rw [hout] at hstays
      exact hstays
    · rw [← hfound]
      exact ((initfsLookup_approx hle).eq_of_ne (hfound.trans_ne fun hout => by cases hout)).symm
  rw [hok] at hstays
  have hfile := (hstays rfl).2
  omega

end Mimik.Ustar
