/-
# Archives and what `initfs_lookup` makes of them

A well-formed ustar archive (`WellFormed`) is a row of members, each a header of 512 bytes
and its data, filled up to the next 512 bytes, and blocks of zeros behind them.  The scan
passes each member whose name is not the path and comes to the next header
(`lookupFrom_archive`).  What it comes to in the end trips an assertion in every case:

* `TYPE_FLAG_FILE` is 1, but the type of a regular file is the character `'0'`;
* the zeros behind the members are not the header of a member.
-/
import Mimik.InitfsScan

namespace Mimik.Ustar

/-! ## Archives -/

/-- A member of an archive. -/
structure Member where
  name : List Char8
  type : Char8
  data : List Char8
  name_lt : name.length < sizeofFileName
  name_ne : ∀ i < name.length, name.getD i 0 ≠ 0
  size_lt : data.length < 8 ^ 11

/-- The type of a regular file. -/
def regular : Char8 := 48

/-- The header of a member. -/
structure HeaderOf (m : ByteMemory) (hdr : ℕ) (x : Member) : Prop where
  name : NameIs m hdr x.name
  size : ∀ i < 11, m (fileSize hdr + i) = BitVec.ofNat 8 (48 + x.data.length / 8 ^ (10 - i) % 8)
  type : m (typeFlag hdr) = x.type
  magic : MagicOk m hdr
  version : VersionOk m hdr

/-- The room of a member: its header and its data, filled up. -/
def Member.room (x : Member) : ℕ := sizeofHeader + (x.data.length + 511) / 512 * 512

/-- The members lie in a row from `a` on, with `zeros` blocks of zeros behind them. -/
def Archive (m : ByteMemory) (zeros : ℕ) : ℕ → List Member → Prop
  | a, [] => ∀ i < zeros * sizeofHeader, m (a + i) = 0
  | a, x :: xs => HeaderOf m a x ∧
      (∀ i < x.data.length, m (a + sizeofHeader + i) = x.data.getD i 0) ∧
      Archive m zeros (a + x.room) xs

/-- The room of the members. -/
def room (xs : List Member) : ℕ := (xs.map Member.room).sum

/-- The file system holds a well-formed archive of the members `xs`. -/
structure WellFormed (fs : Initfs) (m : ByteMemory) (zeros : ℕ) (xs : List Member) : Prop where
  aligned : fs.virtStart % sizeofHeader = 0
  archive : Archive m zeros fs.virtStart xs
  ended : 2 ≤ zeros
  inside : fs.virtStart + room xs + zeros * sizeofHeader ≤ fs.virtEnd
  address : fs.virtEnd < 2 ^ 64

/-! ## The scan -/

section Scan

variable {fs : Initfs} {m : ByteMemory} {path : Str} {s : List Char8} {x : Member}
  {xs before after : List Member} {a hdr n filePtr fileSz fuel zeros : ℕ}

/-- The first digits of a size. -/
theorem octValue_size (h : HeaderOf m hdr x) (hn : n ≤ 11) :
    octValue m (fileSize hdr) n = x.data.length / 8 ^ (11 - n) := by
  induction n with
  | zero => exact (Nat.div_eq_of_lt x.size_lt).symm
  | succ n ih =>
    have hdigit : (m (fileSize hdr + n)).toNat = 48 + x.data.length / 8 ^ (10 - n) % 8 := by
      rw [h.size n (by omega), BitVec.toNat_ofNat]
      omega
    have hpow : 8 ^ (11 - n) = 8 ^ (10 - n) * 8 := by
      rw [← Nat.pow_succ]
      congr 1
      omega
    have hindex : 11 - (n + 1) = 10 - n := by omega
    rw [octValue, ih (by omega), hdigit, hpow, ← Nat.div_div_eq_div_mul, hindex]
    omega

/-- The header of a member passes the checks, and its size is that of the data. -/
theorem HeaderOf.ok (h : HeaderOf m hdr x) : HeaderOk m hdr ∧ sizeIn m hdr = x.data.length := by
  refine ⟨⟨h.magic, h.version, fun i hi => ?_⟩, ?_⟩
  · rw [IsOctal, h.size i hi, BitVec.toNat_ofNat]
    omega
  · rw [sizeIn, octValue_size h le_rfl, Nat.sub_self, Nat.pow_zero, Nat.div_one]

/-- The header has no other name. -/
theorem HeaderOf.nameIs_iff (h : HeaderOf m hdr x) (hs : ∀ i < s.length, s.getD i 0 ≠ 0) :
    NameIs m hdr s ↔ x.name = s := by
  constructor
  · intro hname
    let all : Initfs := ⟨0, fileName hdr + s.length + x.name.length + 1, 0, 0⟩
    have hheld : Holds (all.pointer m (fileName hdr)) x.name :=
      holds_pointer (Nat.zero_le _) (show _ < fileName hdr + s.length + x.name.length + 1 by omega)
        h.name x.name_ne
    exact (string_eq_iff hheld hs).mpr hname
  · rintro rfl
    exact h.name

/-- From one header to the next. -/
theorem nextHeader_eq (haligned : hdr % sizeofHeader = 0) (hlt : hdr + x.room < 2 ^ 64) :
    nextHeader hdr x.data.length = hdr + x.room := by
  rw [Member.room, sizeofHeader] at *
  have hinner : wrap64 (hdr + 512 + x.data.length) = hdr + 512 + x.data.length :=
    wrap64_of_lt (by omega)
  rw [nextHeader, alignUp, sizeofHeader, hinner, wrap64_of_lt (by omega)]
  omega

theorem room_cons : room (x :: xs) = x.room + room xs := rfl

/-- What a header in the archive reads lies in the archive. -/
theorem HeaderOf.headerIn (h : HeaderOf m hdr x) (hstart : fs.virtStart ≤ hdr)
    (hend : hdr + sizeofHeader ≤ fs.virtEnd) : HeaderIn fs m hdr where
  start := hstart
  magic := by
    rw [sizeofHeader] at hend
    exact ⟨5, by rw [ustarString]; omega, h.magic 5 (by omega)⟩
  version _ := by
    rw [sizeofHeader] at hend
    rw [ustarVersion]
    exact ⟨by omega, fun _ => by omega⟩

/-- **The scan passes the members that are not looked for.** -/
theorem lookupFrom_archive (hstart : fs.virtStart ≤ a) (haligned : a % sizeofHeader = 0)
    (harchive : Archive m zeros a (before ++ after))
    (hend : a + room (before ++ after) < fs.virtEnd)
    (haddress : fs.virtEnd < 2 ^ 64) (hpath : Holds path s) (hfuel : fs.virtEnd ≤ fuel)
    (hs : s.length < fuel) (hfirst : ∀ x ∈ before, x.name ≠ s) :
    lookupFrom fs m path filePtr fileSz fuel (n + before.length) a =
        lookupFrom fs m path filePtr fileSz fuel n (a + room before) ∧
      Archive m zeros (a + room before) after ∧ (a + room before) % sizeofHeader = 0 := by
  induction before generalizing a with
  | nil => exact ⟨rfl, harchive, haligned⟩
  | cons x before ih =>
    obtain ⟨hheader, -, hrest⟩ := harchive
    rw [List.cons_append, room_cons] at hend
    have hroom : sizeofHeader ≤ x.room := Nat.le_add_right _ _
    have hin : HeaderIn fs m a := hheader.headerIn hstart (by omega)
    have hname : ¬ NameIs m a s := by
      rw [hheader.nameIs_iff hpath.nonzero]
      exact hfirst x List.mem_cons_self
    have hmultiple : (a + x.room) % sizeofHeader = 0 := by
      rw [Member.room, sizeofHeader] at *
      omega
    have hnext := ih (by omega) hmultiple hrest (by omega) fun y hy =>
      hfirst y (List.mem_cons_of_mem x hy)
    rw [List.length_cons, ← Nat.add_assoc, lookupFrom_round hin (by omega) hpath hfuel hs,
      if_neg (not_not.mpr hheader.ok.1.magic), if_neg (not_not.mpr hheader.ok.1.version),
      if_neg (not_not.mpr hheader.ok.1.size), if_pos hname, hheader.ok.2,
      nextHeader_eq haligned (by omega), hnext.1, room_cons, ← Nat.add_assoc]
    exact ⟨rfl, hnext.2⟩

/-- A file that is found trips the assertion on its type. -/
theorem lookup_regular_fails (h : WellFormed fs m zeros (before ++ x :: after))
    (hstart : fs.virtStart ≠ 0) (hpath : Holds path s) (hne : s ≠ [])
    (hfirst : ∀ y ∈ before, y.name ≠ s) (hname : x.name = s) (htype : x.type = regular)
    (hfuel : fs.virtEnd + before.length + 100 ≤ fuel) :
    initfsLookup fuel fs m path filePtr fileSz =
      .error (.assertion "hdr->type_flag == TYPE_FLAG_FILE") := by
  have hend := h.inside
  have hended := h.ended
  have hshort : s.length < sizeofFileName := hname ▸ x.name_lt
  rw [sizeofHeader] at hend
  have hlen : s.length < fuel := hshort.trans (by rw [sizeofFileName]; omega)
  obtain ⟨n, hn⟩ : ∃ n, fuel = n + 1 + before.length := ⟨fuel - 1 - before.length, by omega⟩
  have hscan : lookupFrom fs m path filePtr fileSz fuel (n + 1 + before.length)
    fs.virtStart = _ ∧ _ :=
    lookupFrom_archive le_rfl h.aligned h.archive (by omega) h.address hpath (by omega) hlen hfirst
  obtain ⟨hscan, ⟨hheader, -, -⟩, -⟩ := hscan
  have hroom : room (before ++ x :: after) = room before + (x.room + room after) := by
    rw [room, List.map_append, List.sum_append]
    rfl
  have hheaderRoom : 512 ≤ x.room := Nat.le_add_right _ _
  have hin : HeaderIn fs m (fs.virtStart + room before) :=
    hheader.headerIn (Nat.le_add_right _ _) (by rw [sizeofHeader]; omega)
  have hnot : m (typeFlag (fs.virtStart + room before)) ≠ typeFlagFile := by
    rw [hheader.type, htype]
    decide
  rw [initfsLookup_eq hstart hpath hlen, if_pos hshort]
  nth_rewrite 2 [hn]
  rw [hscan, lookupFrom_round hin (by omega) hpath (by omega) hlen,
    if_neg (not_not.mpr hheader.ok.1.magic), if_neg (not_not.mpr hheader.ok.1.version),
    if_neg (not_not.mpr hheader.ok.1.size),
    if_neg (not_not.mpr ((hheader.nameIs_iff hpath.nonzero).mpr hname)), if_neg hne, if_neg hnot]

/-- A file that is not found trips the assertion on the header: the zeros behind the members
are read as one. -/
theorem lookup_missing_fails (h : WellFormed fs m zeros xs) (hstart : fs.virtStart ≠ 0)
    (hpath : Holds path s) (hshort : s.length < sizeofFileName) (hmissing : ∀ x ∈ xs, x.name ≠ s)
    (hfuel : fs.virtEnd + xs.length + 100 ≤ fuel) :
    initfsLookup fuel fs m path filePtr fileSz =
      .error (.assertion "str_equal(hdr->ustar_string, \"ustar\")") := by
  have hend := h.inside
  have hended := h.ended
  have harchive := h.archive
  rw [sizeofHeader] at hend
  have hlen : s.length < fuel := hshort.trans (by rw [sizeofFileName]; omega)
  obtain ⟨n, hn⟩ : ∃ n, fuel = n + 1 + xs.length := ⟨fuel - 1 - xs.length, by omega⟩
  rw [← List.append_nil xs] at harchive hend
  have hscan : lookupFrom fs m path filePtr fileSz fuel (n + 1 + xs.length) fs.virtStart = _ ∧ _ :=
    lookupFrom_archive le_rfl h.aligned harchive (by omega) h.address hpath (by omega) hlen hmissing
  obtain ⟨hscan, hzeros, -⟩ := hscan
  rw [List.append_nil] at hend
  have hzero : ∀ i < 1024, m (fs.virtStart + room xs + i) = 0 := fun i hi =>
    hzeros i (by rw [sizeofHeader]; omega)
  have hin : HeaderIn fs m (fs.virtStart + room xs) := by
    refine ⟨⟨Nat.le_add_right _ _, ⟨0, ?_, hzero 257 (by omega)⟩⟩, fun hmagic => ?_⟩
    · rw [ustarString]
      omega
    · have hfirst := hmagic 0 (by omega)
      rw [ustarString, Nat.add_zero, hzero 257 (by omega)] at hfirst
      exact absurd hfirst (by decide)
  have hnot : ¬ MagicOk m (fs.virtStart + room xs) := by
    intro hmagic
    have hfirst := hmagic 0 (by omega)
    rw [ustarString, Nat.add_zero, hzero 257 (by omega)] at hfirst
    exact absurd hfirst (by decide)
  rw [initfsLookup_eq hstart hpath hlen, if_pos hshort]
  nth_rewrite 2 [hn]
  rw [hscan, lookupFrom_round hin (by omega) hpath (by omega) hlen, if_pos hnot]

/-- A lookup that trips an assertion does not return. -/
theorem lookup_ne_ok {expr : String} {r : Status × ℕ × ℕ} {enough : ℕ}
    (h : initfsLookup enough fs m path filePtr fileSz = .error (.assertion expr)) (fuel : ℕ) :
    initfsLookup fuel fs m path filePtr fileSz ≠ .ok r := by
  intro hok
  rcases le_total fuel enough with hle | hle
  · have hmore := (initfsLookup_approx hle).eq_of_ne (hok.trans_ne fun hcontra => by cases hcontra)
    rw [hok, h] at hmore
    cases hmore
  · have hmore := (initfsLookup_approx hle).eq_of_ne (h.trans_ne fun hcontra => by cases hcontra)
    rw [hok, h] at hmore
    cases hmore

/-- The null pointer trips an assertion. -/
theorem lookup_null (hstart : fs.virtStart = 0) (fuel : ℕ) :
    initfsLookup fuel fs m path filePtr fileSz = .error (.assertion "hdr != NULL") := by
  have hnull : (fs.virtStart != 0) = false := by rw [hstart]; rfl
  rw [initfsLookup, hnull]
  rfl

/-- The lookup of a file: it returns `SUCCESS` with the size of the member and a pointer to
its data. -/
def Finds (fs : Initfs) (m : ByteMemory) (path : Str) (x : Member) : Prop :=
  ∀ filePtr fileSz, ∃ fuel ptr,
    initfsLookup fuel fs m path filePtr fileSz = .ok (success, ptr, x.data.length) ∧
      ∀ i < x.data.length, m (ptr + i) = x.data.getD i 0

/-- The lookup of a file that is missing: it returns `-ENOENT` and leaves the pointer and the
size. -/
def ReportsMissing (fs : Initfs) (m : ByteMemory) (path : Str) : Prop :=
  ∀ filePtr fileSz, ∃ fuel,
    initfsLookup fuel fs m path filePtr fileSz = .ok (-enoent, filePtr, fileSz)

/-- **No file is found.**  In no well-formed archive does `initfs_lookup` return a regular
file. -/
theorem not_finds_regular (h : WellFormed fs m zeros (before ++ x :: after))
    (hpath : Holds path s) (hne : s ≠ []) (hfirst : ∀ y ∈ before, y.name ≠ s)
    (hname : x.name = s) (htype : x.type = regular) : ¬ Finds fs m path x := by
  intro hfinds
  obtain ⟨fuel, ptr, hok, -⟩ := hfinds 0 0
  by_cases hstart : fs.virtStart = 0
  · rw [lookup_null hstart] at hok
    cases hok
  · exact lookup_ne_ok (lookup_regular_fails h hstart hpath hne hfirst hname htype le_rfl) fuel hok

/-- **No missing file is reported.**  In no well-formed archive does `initfs_lookup` return
`-ENOENT` for a path that is not the name of a member. -/
theorem not_reportsMissing (h : WellFormed fs m zeros xs) (hpath : Holds path s)
    (hshort : s.length < sizeofFileName) (hmissing : ∀ x ∈ xs, x.name ≠ s) :
    ¬ ReportsMissing fs m path := by
  intro hreports
  obtain ⟨fuel, hok⟩ := hreports 0 0
  by_cases hstart : fs.virtStart = 0
  · rw [lookup_null hstart] at hok
    cases hok
  · exact lookup_ne_ok (lookup_missing_fails h hstart hpath hshort hmissing le_rfl) fuel hok

end Scan

/-! ## An archive of one file -/

/-- The file `a` with the one character `x`. -/
def smallFile : Member where
  name := chars "a"
  type := regular
  data := chars "x"
  name_lt := by decide
  name_ne := by decide
  size_lt := by decide

/-- Where the archive lies. -/
def smallFs : Initfs where
  virtStart := 0xffff900000000000
  virtEnd := 0xffff900000000800
  physStart := 0x200000
  physEnd := 0x200800

/-- The bytes of the archive, by their offset. -/
def smallByte (i : ℕ) : Char8 :=
  if i = 0 then 97
  else if 124 ≤ i ∧ i < 134 then 48
  else if i = 134 then 49
  else if i = 156 then 48
  else if 257 ≤ i ∧ i < 262 then (chars "ustar").getD (i - 257) 0
  else if i = 263 ∨ i = 264 then 48
  else if i = 512 then 120
  else 0

/-- The memory with the archive. -/
def smallMemory : ByteMemory := fun a => smallByte (a - 0xffff900000000000)

theorem smallByte_zero {i : ℕ} (h : 512 < i) : smallByte i = 0 := by
  rw [smallByte, if_neg (by omega), if_neg (by omega), if_neg (by omega), if_neg (by omega),
    if_neg (by omega), if_neg (by omega), if_neg (by omega)]

theorem wellFormed_small : WellFormed smallFs smallMemory 2 [smallFile] where
  aligned := by decide
  archive := by
    refine ⟨⟨?_, ?_, ?_, ?_, ?_⟩, ?_, fun i _ => ?_⟩
    · show ∀ i ≤ 1, _
      decide
    · decide
    · decide
    · show ∀ i < 6, _
      decide
    · show ∀ i < 2, _
      decide
    · decide
    · show smallByte (0xffff900000000400 + i - 0xffff900000000000) = 0
      exact smallByte_zero (by omega)
  ended := le_rfl
  inside := by decide
  address := by decide

/-- The paths `a` and `b`. -/
theorem holds_small : Holds (Str.ofList (chars "a")) (chars "a") ∧
    Holds (Str.ofList (chars "b")) (chars "b") :=
  ⟨holds_ofList (by decide), holds_ofList (by decide)⟩

/-- The one file is not found. -/
theorem not_finds_small : ¬ Finds smallFs smallMemory (Str.ofList (chars "a")) smallFile := by
  have harchive : WellFormed smallFs smallMemory 2 ([] ++ smallFile :: []) := wellFormed_small
  exact not_finds_regular harchive holds_small.1 (by decide) (fun _ hy =>
    absurd hy List.not_mem_nil)
    rfl rfl

/-- The archive is well formed and the path is the name of a regular file, but the lookup
halts on the type of the file. -/
theorem lookup_small : WellFormed smallFs smallMemory 2 [smallFile] ∧
    Holds (Str.ofList (chars "a")) smallFile.name ∧ smallFile.type = regular ∧
    initfsLookup 8 smallFs smallMemory (Str.ofList (chars "a")) 0 0 =
      .error (.assertion "hdr->type_flag == TYPE_FLAG_FILE") ∧
    ¬ Finds smallFs smallMemory (Str.ofList (chars "a")) smallFile := by
  have hhalt : initfsLookup 8 smallFs smallMemory (Str.ofList (chars "a")) 0 0 =
      .error (.assertion "hdr->type_flag == TYPE_FLAG_FILE") := by
    decide +kernel
  refine ⟨wellFormed_small, holds_small.1, rfl, hhalt, fun hfinds => ?_⟩
  obtain ⟨fuel, ptr, hok, -⟩ := hfinds 0 0
  exact lookup_ne_ok hhalt fuel hok

/-- A path that is no name is not reported. -/
theorem not_reportsMissing_small :
    ¬ ReportsMissing smallFs smallMemory (Str.ofList (chars "b")) :=
  not_reportsMissing wellFormed_small holds_small.2 (by decide) (by decide)

/-- The archive is well formed and the path is not the name of its file, but the lookup halts
on the zeros behind the file. -/
theorem lookup_small_missing : WellFormed smallFs smallMemory 2 [smallFile] ∧
    Holds (Str.ofList (chars "b")) (chars "b") ∧ smallFile.name ≠ chars "b" ∧
    initfsLookup 8 smallFs smallMemory (Str.ofList (chars "b")) 0 0 =
      .error (.assertion "str_equal(hdr->ustar_string, \"ustar\")") ∧
    ¬ ReportsMissing smallFs smallMemory (Str.ofList (chars "b")) := by
  have hhalt : initfsLookup 8 smallFs smallMemory (Str.ofList (chars "b")) 0 0 =
      .error (.assertion "str_equal(hdr->ustar_string, \"ustar\")") := by
    decide +kernel
  refine ⟨wellFormed_small, holds_small.2, by decide, hhalt, fun hreports => ?_⟩
  obtain ⟨fuel, hok⟩ := hreports 0 0
  exact lookup_ne_ok hhalt fuel hok

end Mimik.Ustar
