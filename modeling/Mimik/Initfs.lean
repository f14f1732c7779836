/-
# Files of the initial file system (`common/initfs.c`)

The initial file system is a ustar archive that lies in memory from `virt_start` to
`virt_end`.  `initfs_lookup` goes from header to header and compares the file name of
each with the path.

The model reads the archive and nothing else: an access to an address that is not between
`virt_start` and `virt_end` ends in a fault.  The address of a header may wrap around, the
addresses of its fields are not reduced: past the end of the archive they are outside in
any case.  What is left in `*file_ptr` and `*file_size` is part of the result.
-/
import Mimik.Str
import Mimik.ByteMemory

namespace Mimik.Ustar

/-- `struct initfs`. -/
structure Initfs where
  virtStart : ℕ
  virtEnd : ℕ
  physStart : ℕ
  physEnd : ℕ

/-- The pointer to the byte at `addr`. -/
def Initfs.pointer (fs : Initfs) (m : ByteMemory) (addr : ℕ) : Str := fun i =>
  if fs.virtStart ≤ addr + i ∧ addr + i < fs.virtEnd then .ok (m (addr + i))
  else .error (.wild "initfs")

/-! ## `struct ustar_header` -/

/-- The fields of `struct ustar_header`, with their sizes. -/
def ustarHeader : List (String × ℕ) :=
  [("file_name", 100), ("file_mode", 8), ("owner_uid", 8), ("owner_gid", 8), ("file_size", 12),
   ("last_modification_time", 12), ("checksum", 8), ("type_flag", 1), ("linked_file_name", 100),
   ("ustar_string", 6), ("ustar_version", 2), ("owner_user_name", 32), ("owner_group_name", 32),
   ("device_major_number", 8), ("device_minor_number", 8), ("file_name_prefix", 155),
   ("reserved", 12)]

/-- The offset of a field: the sizes of the fields before it. -/
def offsetOf (field : String) : ℕ :=
  ((ustarHeader.takeWhile fun x => x.1 != field).map Prod.snd).sum

/-- `sizeof(hdr->file_name)`. -/
def sizeofFileName : ℕ := 100

/-- `sizeof(hdr->file_size)`. -/
def sizeofFileSize : ℕ := 12

/-- `sizeof(struct ustar_header)`. -/
def sizeofHeader : ℕ := 512

/-- `hdr->file_name`. -/
def fileName (hdr : ℕ) : ℕ := hdr

/-- `hdr->file_size`. -/
def fileSize (hdr : ℕ) : ℕ := hdr + 124

/-- `hdr->type_flag`. -/
def typeFlag (hdr : ℕ) : ℕ := hdr + 156

/-- `hdr->ustar_string`. -/
def ustarString (hdr : ℕ) : ℕ := hdr + 257

/-- `hdr->ustar_version`. -/
def ustarVersion (hdr : ℕ) : ℕ := hdr + 263

/-- The structure is packed. -/
example : ["file_name", "file_size", "type_flag", "ustar_string", "ustar_version"].map offsetOf =
    [fileName 0, fileSize 0, typeFlag 0, ustarString 0, ustarVersion 0] ∧
    (ustarHeader.map Prod.snd).sum = sizeofHeader := by
  decide

/-- `TYPE_FLAG_FILE`. -/
def typeFlagFile : Char8 := 1

/-! ## The functions -/

/-- The loop of `oct_str_to_num`, for `n` digits from the offset `i` on. -/
def octDigits (str : Str) : ℕ → ℕ → ℕ → Except Fault ℕ
  | 0, _, num => return num
  | n + 1, i, num => do
    let num := wrap64 (num <<< 3)
    let c ← str i
    assert (48 ≤ c.toNat && c.toNat ≤ 55) "*str >= '0' && *str <= '7'"
    octDigits str n (i + 1) (wrap64 (num + (c.toNat - 48)))

/-- `oct_str_to_num`; the length is counted down before the first digit. -/
def octStrToNum (str : Str) (len : ℕ) : Except Fault ℕ := octDigits str (pred64 len) 0 0

/-- The address of the next header. -/
def nextHeader (hdr sz : ℕ) : ℕ := alignUp (wrap64 (hdr + sizeofHeader + sz)) sizeofHeader

/-- The loop of `initfs_lookup`.  Nothing makes the addresses of the headers increase: the
number of the rounds is an argument of the model, like the fuel of `str_length`. -/
def lookupFrom (fs : Initfs) (m : ByteMemory) (path : Str) (filePtr fileSz fuel : ℕ) :
    ℕ → ℕ → Except Fault (Status × ℕ × ℕ)
  | 0, _ => .error .outOfFuel
  | n + 1, hdr => do
    if hdr < fs.virtEnd then
      let magic ← strEqual fuel (fs.pointer m (ustarString hdr)) (Str.ofList (chars "ustar"))
      assert magic "str_equal(hdr->ustar_string, \"ustar\")"
      let version ← strNequal (fs.pointer m (ustarVersion hdr)) (Str.ofList (chars "00")) 2
      assert version "str_nequal(hdr->ustar_version, \"00\", 2)"
      let sz ← octStrToNum (fs.pointer m (fileSize hdr)) sizeofFileSize
      let found ← strEqual fuel (fs.pointer m (fileName hdr)) path
      if found then
        let type ← fs.pointer m (typeFlag hdr) 0
        assert (type = typeFlagFile) "hdr->type_flag == TYPE_FLAG_FILE"
        return (success, wrap64 (hdr + sizeofHeader), sz)
      else lookupFrom fs m path filePtr fileSz fuel n (nextHeader hdr sz)
    else return (-enoent, filePtr, fileSz)

/-- `initfs_lookup`, with what it leaves in `*file_ptr` and `*file_size`. -/
def initfsLookup (fuel : ℕ) (fs : Initfs) (m : ByteMemory) (path : Str) (filePtr fileSz : ℕ) :
    Except Fault (Status × ℕ × ℕ) := do
  let hdr := fs.virtStart
  assert (hdr != 0) "hdr != NULL"
  let len ← strLength fuel path
  assert (len < sizeofFileName) "str_length(path) < sizeof(hdr->file_name)"
  lookupFrom fs m path filePtr fileSz fuel fuel hdr

end Mimik.Ustar
