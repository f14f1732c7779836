/-
# A round of `initfs_lookup`

What the header at an address says is a matter of the bytes there: whether it passes the
checks (`HeaderOk`), the size in it and the name in it.  The lemmas of this module say
what a round of the loop makes of a header that lies inside the archive.
-/
import Mimik.Initfs
import Mathlib.Tactic.IntervalCases

namespace Mimik.Ustar

/-! ## More fuel -/

section Fuel

variable {fs : Initfs} {m : ByteMemory} {path : Str} {filePtr fileSz fuel fuel' n n' : ℕ}

theorem lookupFrom_approx (hfuel : fuel ≤ fuel') (hn : n ≤ n') (hdr : ℕ) :
    Approx (lookupFrom fs m path filePtr fileSz fuel n hdr)
      (lookupFrom fs m path filePtr fileSz fuel' n' hdr) := by
  induction n generalizing n' hdr with
  | zero => exact .inl rfl
  | succ n ih =>
    obtain ⟨n', rfl⟩ := Nat.exists_eq_add_of_le' (Nat.one_le_of_lt hn)
    apply Approx.ite
    · apply Approx.bind (strEqual_approx _ _ hfuel)
      intro magic
      apply Approx.bind (Approx.refl _)
      intro _
      apply Approx.bind (Approx.refl _)
      intro version
      apply Approx.bind (Approx.refl _)
      intro _
      apply Approx.bind (Approx.refl _)
      intro sz
      apply Approx.bind (strEqual_approx _ _ hfuel)
      intro found
      exact Approx.ite (Approx.refl _) (ih (by omega) _)
    · exact Approx.refl _

/-- A result for some fuel is the result for more of it. -/
theorem initfsLookup_approx (h : fuel ≤ fuel') :
    Approx (initfsLookup fuel fs m path filePtr fileSz)
      (initfsLookup fuel' fs m path filePtr fileSz) := by
  apply Approx.bind (Approx.refl _)
  intro _
  apply Approx.bind (strLengthFrom_approx path h 0)
  intro len
  apply Approx.bind (Approx.refl _)
  exact fun _ => lookupFrom_approx h h _

end Fuel

/-! ## What a header says -/

/-- The six bytes of `ustar_string`, with the NUL byte. -/
def MagicOk (m : ByteMemory) (hdr : ℕ) : Prop :=
  ∀ i < 6, m (ustarString hdr + i) = (chars "ustar").getD i 0

/-- The two bytes of `ustar_version`. -/
def VersionOk (m : ByteMemory) (hdr : ℕ) : Prop := ∀ i < 2, m (ustarVersion hdr + i) = 48

/-- The byte is an octal digit. -/
def IsOctal (c : Char8) : Prop := 48 ≤ c.toNat ∧ c.toNat ≤ 55

/-- The first eleven bytes of `file_size`. -/
def SizeOk (m : ByteMemory) (hdr : ℕ) : Prop := ∀ i < 11, IsOctal (m (fileSize hdr + i))

/-- The number in the first `n` octal digits from `a` on. -/
def octValue (m : ByteMemory) (a : ℕ) : ℕ → ℕ
  | 0 => 0
  | n + 1 => octValue m a n * 8 + ((m (a + n)).toNat - 48)

/-- The size in a header. -/
def sizeIn (m : ByteMemory) (hdr : ℕ) : ℕ := octValue m (fileSize hdr) 11

/-- The name in a header is `s`. -/
def NameIs (m : ByteMemory) (hdr : ℕ) (s : List Char8) : Prop :=
  ∀ i ≤ s.length, m (fileName hdr + i) = s.getD i 0

/-- The header passes the checks of `initfs_lookup`. -/
structure HeaderOk (m : ByteMemory) (hdr : ℕ) : Prop where
  magic : MagicOk m hdr
  version : VersionOk m hdr
  size : SizeOk m hdr

/-! ## Reading in the archive -/

section Reads

variable {fs : Initfs} {m : ByteMemory} {path : Str} {s : List Char8}
  {a i n k filePtr fileSz fuel hdr : ℕ}

theorem pointer_of_mem (hstart : fs.virtStart ≤ a + i) (hend : a + i < fs.virtEnd) :
    fs.pointer m a i = .ok (m (a + i)) :=
  if_pos ⟨hstart, hend⟩

theorem pointer_of_not_mem (h : a + i < fs.virtStart ∨ fs.virtEnd ≤ a + i) :
    fs.pointer m a i = .error (.wild "initfs") :=
  if_neg (by omega)

/-- A string that lies inside the archive. -/
theorem holds_pointer (hstart : fs.virtStart ≤ a) (hend : a + s.length < fs.virtEnd)
    (hbytes : ∀ i ≤ s.length, m (a + i) = s.getD i 0) (hne : ∀ i < s.length, s.getD i 0 ≠ 0) :
    Holds (fs.pointer m a) s where
  char i hi := by
    rw [pointer_of_mem (by omega) (by omega), hbytes i hi.le]
  nonzero := hne
  nul := by
    rw [pointer_of_mem (by omega) hend, hbytes _ le_rfl, List.getD_eq_default _ _ le_rfl]

/-- Where there is a NUL byte there is a string. -/
theorem exists_holds (hstart : fs.virtStart ≤ a) (hend : a + k < fs.virtEnd)
    (hnul : m (a + k) = 0) : ∃ s, s.length ≤ k ∧ Holds (fs.pointer m a) s := by
  classical
  have hex : ∃ k, m (a + k) = 0 := ⟨k, hnul⟩
  have hle : Nat.find hex ≤ k := Nat.find_min' hex hnul
  have hlen : ((List.range (Nat.find hex)).map fun i => m (a + i)).length = Nat.find hex := by
    rw [List.length_map, List.length_range]
  have hget : ∀ i < Nat.find hex,
      ((List.range (Nat.find hex)).map fun i => m (a + i)).getD i 0 = m (a + i) := by
    intro i hi
    rw [List.getD_eq_getElem _ _ (by rw [hlen]; exact hi), List.getElem_map, List.getElem_range]
  refine ⟨(List.range (Nat.find hex)).map fun i => m (a + i), by rw [hlen]; exact hle,
    holds_pointer hstart (by rw [hlen]; omega) (fun i hi => ?_) fun i hi => ?_⟩
  · rw [hlen] at hi
    rcases hi.lt_or_eq with hlt | rfl
    · exact (hget i hlt).symm
    · rw [Nat.find_spec hex, List.getD_eq_default _ _ hlen.le]
  · rw [hlen] at hi
    rw [hget i hi]
    exact Nat.find_min hex hi

/-- Without a NUL byte the loop of `str_length` leaves the archive. -/
theorem strLengthFrom_outside (hnul : ∀ j, a + j < fs.virtEnd → m (a + j) ≠ 0) (fuel i : ℕ) :
    strLengthFrom (fs.pointer m a) fuel i = .error .outOfFuel ∨
      strLengthFrom (fs.pointer m a) fuel i = .error (.wild "initfs") := by
  induction fuel generalizing i with
  | zero => exact .inl rfl
  | succ fuel ih =>
    rw [strLengthFrom]
    by_cases hin : fs.virtStart ≤ a + i ∧ a + i < fs.virtEnd
    · rw [pointer_of_mem hin.1 hin.2]
      show (if m (a + i) = 0 then _ else _) = _ ∨ (if m (a + i) = 0 then _ else _) = _
      rw [if_neg (hnul i hin.2)]
      exact ih (i + 1)
    · rw [pointer_of_not_mem (by omega)]
      exact .inr rfl

/-! ## The checks of a header -/

/-- The number in `n` octal digits. -/
theorem octValue_lt (h : ∀ j < n, IsOctal (m (a + j))) : octValue m a n < 8 ^ n := by
  induction n with
  | zero => exact Nat.one_pos
  | succ n ih =>
    have hrest := ih fun j hj => h j (by omega)
    have hdigit := (h n (by omega)).2
    rw [octValue, Nat.pow_succ]
    omega

/-- The digits of a size that lies inside the archive. -/
theorem octDigits_eq (hstart : fs.virtStart ≤ a) (hend : a + (i + n) ≤ fs.virtEnd)
    (hbound : i + n ≤ 11) (hdone : ∀ j < i, IsOctal (m (a + j))) :
    octDigits (fs.pointer m a) n i (octValue m a i) = .ok (octValue m a (i + n)) ∧
        (∀ j < i + n, IsOctal (m (a + j))) ∨
      octDigits (fs.pointer m a) n i (octValue m a i) =
        .error (.assertion "*str >= '0' && *str <= '7'") ∧
        ¬ ∀ j < i + n, IsOctal (m (a + j)) := by
  induction n generalizing i with
  | zero => exact .inl ⟨rfl, hdone⟩
  | succ n ih =>
    rw [octDigits, pointer_of_mem (by omega) (by omega)]
    show (assert (decide (48 ≤ (m (a + i)).toNat) && decide ((m (a + i)).toNat ≤ 55)) _ >>= _) = _ ∧
      _ ∨ (assert (decide (48 ≤ (m (a + i)).toNat) && decide ((m (a + i)).toNat ≤ 55))
        _ >>= _) = _ ∧
      _
    by_cases hdigit : IsOctal (m (a + i))
    · have hlt : octValue m a i < 8 ^ i := octValue_lt hdone
      have hpow : 8 ^ i ≤ 8 ^ 10 := Nat.pow_le_pow_right (by omega) (by omega)
      have hshift : wrap64 (octValue m a i <<< 3) = octValue m a i * 8 := by
        rw [Nat.shiftLeft_eq, wrap64_of_lt (by omega)]
      have hnum : wrap64 (wrap64 (octValue m a i <<< 3) + ((m (a + i)).toNat - 48)) =
          octValue m a (i + 1) := by
        have hle := hdigit.2
        rw [hshift, wrap64_of_lt (by omega)]
        rfl
      have hdone' : ∀ j < i + 1, IsOctal (m (a + j)) := by
        intro j hj
        rcases Nat.lt_succ_iff_lt_or_eq.mp hj with hj | rfl
        · exact hdone j hj
        · exact hdigit
      rw [decide_eq_true hdigit.1, decide_eq_true hdigit.2]
      show octDigits _ n (i + 1) (wrap64 (wrap64 (octValue m a i <<< 3) + _)) = _ ∧ _ ∨
        octDigits _ n (i + 1) (wrap64 (wrap64 (octValue m a i <<< 3) + _)) = _ ∧ _
      rw [hnum, ← Nat.add_assoc, Nat.add_right_comm i n 1]
      exact ih (by omega) (by omega) hdone'
    · have hfalse : (decide (48 ≤ (m (a + i)).toNat) && decide ((m (a + i)).toNat ≤ 55)) =
        false := by
        rw [Bool.and_eq_false_iff, decide_eq_false_iff_not, decide_eq_false_iff_not]
        exact not_and_or.mp hdigit
      rw [hfalse]
      exact .inr ⟨rfl, fun hall => hdigit (hall i (by omega))⟩

/-- The size in a header is a number of eleven octal digits. -/
theorem sizeIn_lt (h : SizeOk m hdr) : sizeIn m hdr < 2 ^ 33 := octValue_lt h

/-- The string at an address is `s` when the bytes there are those of `s`. -/
theorem string_eq_iff {t : List Char8} (ht : Holds (fs.pointer m a) t)
    (hne : ∀ i < s.length, s.getD i 0 ≠ 0) :
    t = s ↔ ∀ i ≤ s.length, m (a + i) = s.getD i 0 := by
  have hread : ∀ {i c}, fs.pointer m a i = .ok c →
      (fs.virtStart ≤ a + i ∧ a + i < fs.virtEnd) ∧ m (a + i) = c := by
    intro i c h
    by_cases hin : fs.virtStart ≤ a + i ∧ a + i < fs.virtEnd
    · rw [pointer_of_mem hin.1 hin.2, Except.ok.injEq] at h
      exact ⟨hin, h⟩
    · rw [pointer_of_not_mem (by omega)] at h
      cases h
  constructor
  · rintro rfl i hi
    rcases hi.lt_or_eq with hlt | rfl
    · exact (hread (ht.char i hlt)).2
    · rw [(hread ht.nul).2, List.getD_eq_default _ _ le_rfl]
  · intro hbytes
    -- the string at the address is not shorter, so that all of `s` can be read
    have hle : s.length ≤ t.length := by
      by_contra hlt
      have hnul := (hread ht.nul).2
      rw [hbytes t.length (by omega)] at hnul
      exact hne t.length (by omega) hnul
    have hfirst : fs.virtStart ≤ a := by
      cases t with
      | nil => exact (hread ht.nul).1.1
      | cons c t => exact (hread (ht.char 0 (Nat.succ_pos t.length))).1.1
    have hlast := (hread ht.nul).1.2
    exact ht.unique (holds_pointer hfirst (by omega) hbytes hne)

/-- What the first check reads of a header lies in the archive: the string up to a NUL
byte. -/
structure MagicIn (fs : Initfs) (m : ByteMemory) (hdr : ℕ) : Prop where
  start : fs.virtStart ≤ hdr
  magic : ∃ k, ustarString hdr + k < fs.virtEnd ∧ m (ustarString hdr + k) = 0

/-- What the checks read of a header lies in the archive: where the string is the right one,
also the two bytes of the version, of which the second is read when the first is right. -/
structure HeaderIn (fs : Initfs) (m : ByteMemory) (hdr : ℕ) : Prop extends MagicIn fs m hdr where
  version : MagicOk m hdr → ustarVersion hdr < fs.virtEnd ∧
    (m (ustarVersion hdr) = 48 → ustarVersion hdr + 1 < fs.virtEnd)

/-- The string `ustar` has no NUL byte. -/
theorem chars_ustar : ∀ i < (chars "ustar").length, (chars "ustar").getD i 0 ≠ 0 := by decide

theorem magicOk_iff {t : List Char8} (ht : Holds (fs.pointer m (ustarString hdr)) t) :
    t = chars "ustar" ↔ MagicOk m hdr := by
  rw [string_eq_iff ht chars_ustar]
  exact forall_congr' fun i => by rw [Nat.lt_succ_iff]; rfl

/-- The comparison with `ustar`. -/
theorem magic_eq [Decidable (MagicOk m hdr)] (h : MagicIn fs m hdr) (hfuel : fs.virtEnd ≤ fuel) :
    strEqual fuel (fs.pointer m (ustarString hdr)) (Str.ofList (chars "ustar")) =
      .ok (decide (MagicOk m hdr)) := by
  obtain ⟨k, hend, hnul⟩ := h.magic
  have hstart := h.start
  have hle : fs.virtStart ≤ ustarString hdr := hstart.trans (Nat.le_add_right hdr 257)
  have hoff : k < fs.virtEnd := (Nat.le_add_left k _).trans_lt hend
  obtain ⟨t, hlen, ht⟩ := exists_holds hle hend hnul
  have hfour : 257 ≤ ustarString hdr := Nat.le_add_left 257 hdr
  have hfive : (chars "ustar").length = 5 := rfl
  rw [strEqual_eq ht (holds_ofList chars_ustar) (.inr (by decide)), if_pos (by omega),
    Except.ok.injEq, decide_eq_decide, magicOk_iff ht]

/-- The comparison with `00`. -/
theorem version_eq [Decidable (VersionOk m hdr)] (h : HeaderIn fs m hdr) (hmagic : MagicOk m hdr) :
    strNequal (fs.pointer m (ustarVersion hdr)) (Str.ofList (chars "00")) 2 =
      .ok (decide (VersionOk m hdr)) := by
  have hstart := h.start
  obtain ⟨hfirst, hsecond⟩ := h.version hmagic
  have hzero : ∀ i < 2, Str.ofList (chars "00") i = .ok 48 := by decide
  have hle : fs.virtStart ≤ ustarVersion hdr := hstart.trans (Nat.le_add_right hdr 263)
  have hread : fs.pointer m (ustarVersion hdr) 0 = .ok (m (ustarVersion hdr + 0)) :=
    pointer_of_mem hle hfirst
  show strNequalFrom _ _ 2 0 = _
  rw [strNequalFrom, hread, hzero 0 (by omega)]
  show (if m (ustarVersion hdr + 0) ≠ 48 then _ else _) = _
  by_cases hone : m (ustarVersion hdr + 0) ≠ 48
  · rw [if_pos hone, decide_eq_false fun hall : VersionOk m hdr => hone (hall 0 (by omega))]
    rfl
  · have hread' : fs.pointer m (ustarVersion hdr) (0 + 1) = .ok (m (ustarVersion hdr + (0 + 1))) :=
      pointer_of_mem (hle.trans (Nat.le_add_right _ 1)) (hsecond (not_not.mp hone))
    rw [if_neg hone, strNequalFrom, hread', hzero (0 + 1) (by omega)]
    show (if m (ustarVersion hdr + (0 + 1)) ≠ 48 then _ else _) = _
    by_cases htwo : m (ustarVersion hdr + (0 + 1)) ≠ 48
    · rw [if_pos htwo, decide_eq_false fun hall : VersionOk m hdr => htwo (hall 1 (by omega))]
      rfl
    · rw [if_neg htwo, decide_eq_true]
      · rfl
      · intro i hi
        interval_cases i
        · exact not_not.mp hone
        · exact not_not.mp htwo

/-- A header with the right string reaches over its size and its name. -/
theorem MagicIn.magic_end (h : MagicIn fs m hdr) (hmagic : MagicOk m hdr) :
    hdr + 262 < fs.virtEnd ∧ m (hdr + 262) = 0 := by
  obtain ⟨k, hend, hnul⟩ := h.magic
  have hfive : 5 ≤ k := by
    by_contra hlt
    rw [hmagic k (by omega)] at hnul
    exact chars_ustar k (by show k < 5; omega) hnul
  rw [ustarString] at hend
  exact ⟨by omega, hmagic 5 (by omega)⟩

/-- The number in the size. -/
theorem size_eq [Decidable (SizeOk m hdr)] (h : HeaderIn fs m hdr) (hmagic : MagicOk m hdr) :
    octStrToNum (fs.pointer m (fileSize hdr)) sizeofFileSize =
      if SizeOk m hdr then .ok (sizeIn m hdr)
      else .error (.assertion "*str >= '0' && *str <= '7'") := by
  have hstart := h.start
  have hend := (h.magic_end hmagic).1
  have hle : fs.virtStart ≤ fileSize hdr := hstart.trans (Nat.le_add_right hdr 124)
  have hlast : fileSize hdr + (0 + 11) ≤ fs.virtEnd := by
    rw [fileSize]
    omega
  show octDigits _ 11 0 (octValue m (fileSize hdr) 0) = _
  rcases octDigits_eq (m := m) hle hlast (by omega) fun j hj => absurd hj (Nat.not_lt_zero j) with
    ⟨hok, hall⟩ | ⟨herr, hnot⟩
  · rw [hok, if_pos (show SizeOk m hdr from hall)]
    rfl
  · rw [herr, if_neg (show ¬ SizeOk m hdr from hnot)]

/-- The comparison with the path. -/
theorem name_eq [Decidable (NameIs m hdr s)] (h : HeaderIn fs m hdr) (hmagic : MagicOk m hdr)
    (hpath : Holds path s) (hfuel : fs.virtEnd ≤ fuel) (hs : s.length < fuel) :
    strEqual fuel (fs.pointer m (fileName hdr)) path =
      if NameIs m hdr s ∧ s = [] then .error (.assertion "n > 0")
      else .ok (decide (NameIs m hdr s)) := by
  obtain ⟨hend, hnul⟩ := h.magic_end hmagic
  obtain ⟨t, hlen, ht⟩ := exists_holds (k := 262) (show fs.virtStart ≤ fileName hdr from h.start)
    hend hnul
  have hiff : t = s ↔ NameIs m hdr s := string_eq_iff ht hpath.nonzero
  by_cases hnil : NameIs m hdr s ∧ s = []
  · obtain ⟨hname, rfl⟩ := hnil
    obtain rfl := hiff.mpr hname
    obtain ⟨fuel, rfl⟩ := Nat.exists_eq_add_of_le' (Nat.one_le_of_lt hs)
    rw [if_pos ⟨hname, rfl⟩, strEqual_nil ht hpath]
  · have hne : t ≠ [] ∨ s ≠ [] := by
      by_contra hboth
      rw [not_or, not_not, not_not] at hboth
      exact hnil ⟨hiff.mp (hboth.1.trans hboth.2.symm), hboth.2⟩
    rw [if_neg hnil, strEqual_eq ht hpath hne, if_pos ⟨by omega, hs⟩, Except.ok.injEq,
      decide_eq_decide, hiff]

open Classical in
/-- **A round of `initfs_lookup`** on a header that lies in the archive. -/
theorem lookupFrom_round (h : HeaderIn fs m hdr) (hlt : hdr < fs.virtEnd) (hpath : Holds path s)
    (hfuel : fs.virtEnd ≤ fuel) (hs : s.length < fuel) :
    lookupFrom fs m path filePtr fileSz fuel (n + 1) hdr =
      if ¬ MagicOk m hdr then .error (.assertion "str_equal(hdr->ustar_string, \"ustar\")")
      else if ¬ VersionOk m hdr then
        .error (.assertion "str_nequal(hdr->ustar_version, \"00\", 2)")
      else if ¬ SizeOk m hdr then .error (.assertion "*str >= '0' && *str <= '7'")
      else if ¬ NameIs m hdr s then
        lookupFrom fs m path filePtr fileSz fuel n (nextHeader hdr (sizeIn m hdr))
      else if s = [] then .error (.assertion "n > 0")
      else if m (typeFlag hdr) = typeFlagFile then
        .ok (success, wrap64 (hdr + sizeofHeader), sizeIn m hdr)
      else .error (.assertion "hdr->type_flag == TYPE_FLAG_FILE") := by
  rw [lookupFrom, if_pos hlt, magic_eq h.toMagicIn hfuel]
  by_cases hmagic : MagicOk m hdr
  · rw [if_neg (not_not.mpr hmagic), decide_eq_true hmagic]
    show (strNequal _ _ 2 >>= _) = _
    rw [version_eq h hmagic]
    by_cases hversion : VersionOk m hdr
    · rw [if_neg (not_not.mpr hversion), decide_eq_true hversion]
      show (octStrToNum _ _ >>= _) = _
      rw [size_eq h hmagic]
      by_cases hsize : SizeOk m hdr
      · rw [if_pos hsize, if_neg (not_not.mpr hsize)]
        show (strEqual fuel _ path >>= _) = _
        rw [name_eq h hmagic hpath hfuel hs]
        by_cases hname : NameIs m hdr s
        · rw [if_neg (not_not.mpr hname)]
          by_cases hnil : s = []
          · rw [if_pos ⟨hname, hnil⟩, if_pos hnil]
            rfl
          · rw [if_neg fun hboth : _ ∧ _ => hnil hboth.2, if_neg hnil, decide_eq_true hname]
            show (fs.pointer m (typeFlag hdr) 0 >>= _) = _
            have hend := (h.magic_end hmagic).1
            have hstart := h.start
            rw [pointer_of_mem (by rw [typeFlag]; omega) (by rw [typeFlag]; omega), Nat.add_zero]
            show (assert (decide (m (typeFlag hdr) = typeFlagFile)) _ >>= _) = _
            by_cases htype : m (typeFlag hdr) = typeFlagFile
            · rw [if_pos htype, decide_eq_true htype]
              rfl
            · rw [if_neg htype, decide_eq_false htype]
              rfl
        · rw [if_neg fun hboth : _ ∧ _ => hname hboth.1, if_pos hname, decide_eq_false hname]
          rfl
      · rw [if_neg hsize, if_pos hsize]
        rfl
    · rw [if_pos hversion, decide_eq_false hversion]
      rfl
  · rw [if_pos hmagic, decide_eq_false hmagic]
    rfl

/-- The lookup is the scan, when the path is short enough. -/
theorem initfsLookup_eq (hstart : fs.virtStart ≠ 0) (hpath : Holds path s) (hs : s.length < fuel) :
    initfsLookup fuel fs m path filePtr fileSz =
      if s.length < sizeofFileName then
        lookupFrom fs m path filePtr fileSz fuel fuel fs.virtStart
      else .error (.assertion "str_length(path) < sizeof(hdr->file_name)") := by
  have hnull : (fs.virtStart != 0) = true := by
    rw [bne_iff_ne]
    exact hstart
  rw [initfsLookup, hnull, strLength_eq hpath, if_pos hs]
  show (assert (decide (s.length < sizeofFileName)) _ >>= _) = _
  by_cases hlen : s.length < sizeofFileName
  · rw [if_pos hlen, decide_eq_true hlen]
    rfl
  · rw [if_neg hlen, decide_eq_false hlen]
    rfl

end Reads

end Mimik.Ustar
