import Littlefs.Basic

/-!
# Metadata tags and global state

A tag is kept as its three fields.  `lfsMktag` follows the bitwise `or` of the
source when a size does not fit its ten bits, and `Tag.shift` follows the
32-bit addition `tag + LFS_MKTAG(0, diff, 0)`, which borrows from the type when
the shifted id would be negative.
-/

namespace Littlefs

/-- `lfs_tag_t`: an 11-bit type, an id and a 10-bit size. -/
structure Tag where
  type : ℕ
  id : ℕ
  size : ℕ
  deriving DecidableEq, Repr

def tyReg := 0x001
def tyDir := 0x002
def tySplice := 0x400
def tyName := 0x000
def tyStruct := 0x200
def tyUserattr := 0x300
def tyCcrc := 0x500
def tyTail := 0x600
def tyGlobals := 0x700
def tyCreate := 0x401
def tyDelete := 0x4ff
def tySuperblock := 0x0ff
def tyDirstruct := 0x200
def tyCtzstruct := 0x202
def tyInlinestruct := 0x201
def tySofttail := 0x600
def tyHardtail := 0x601
def tyMovestate := 0x7ff
def fromNoop := 0x000
def fromMove := 0x101
def fromUserattrs := 0x102

def lfsMktag (type id size : ℕ) : Tag where
  type := type ||| size >>> 20
  id := id ||| (size >>> 10) % 1024
  size := size % 1024

def lfsMktagIf (cond : Bool) (type id size : ℕ) : Tag :=
  if cond then lfsMktag type id size else lfsMktag fromNoop 0 0

/-- A size that fits its field leaves the other fields alone. -/
theorem lfsMktag_eq {type id size : ℕ} (hsize : size < 1024) :
    lfsMktag type id size = ⟨type, id, size⟩ := by
  have h10 : size >>> 10 = 0 := by
    rw [Nat.shiftRight_eq_div_pow]
    exact Nat.div_eq_of_lt (by simpa using hsize)
  have h20 : size >>> 20 = 0 := by
    rw [Nat.shiftRight_eq_div_pow]
    exact Nat.div_eq_of_lt (lt_of_lt_of_le hsize (by norm_num))
  simp [lfsMktag, h10, h20, Nat.mod_eq_of_lt hsize]

namespace Tag

def type1 (tag : Tag) : ℕ := tag.type &&& 0x700

def type2 (tag : Tag) : ℕ := tag.type &&& 0x780

def type3 (tag : Tag) : ℕ := tag.type

def chunk (tag : Tag) : ℕ := tag.type &&& 0x0ff

/-- `lfs_tag_splice`: the chunk read as a signed byte. -/
def splice (tag : Tag) : ℤ :=
  if tag.chunk < 0x80 then (tag.chunk : ℤ) else (tag.chunk : ℤ) - 0x100

def isdelete (tag : Tag) : Bool := tag.size == 0x3ff

/-- Bytes of the entry on disk, the tag word included. -/
def dsize (tag : Tag) : ℕ := 4 + if tag.isdelete then 0 else tag.size

/-- `tag.wrapping_add(lfs_mktag(0, diff as u32, 0))`. -/
def shift (tag : Tag) (diff : ℤ) : Tag :=
  if 0 ≤ (tag.id : ℤ) + diff then
    { tag with id := ((tag.id : ℤ) + diff).toNat }
  else
    let word := (((tag.type * 1024 + tag.id : ℕ) : ℤ) + diff) % (2 ^ 21)
    { tag with type := (word / 1024).toNat, id := (word % 1024).toNat }

@[simp]
theorem shift_zero (tag : Tag) : tag.shift 0 = tag := by
  cases tag
  simp [shift]

theorem shift_of_nonneg {tag : Tag} {diff : ℤ} (hid : 0 ≤ (tag.id : ℤ) + diff) :
    tag.shift diff = { tag with id := ((tag.id : ℤ) + diff).toNat } := by
  simp [shift, hid]

end Tag

/-! ## Global state -/

/-- `lfs_gstate_t`.  `sync` is the top bit of the tag word; the size field
holds the orphan count in its low nine bits and the superblock flag in its
tenth. -/
structure Gstate where
  sync : Bool := false
  type : ℕ := 0
  id : ℕ := 0
  size : ℕ := 0
  pair : Pair := (0, 0)
  deriving DecidableEq, Repr

namespace Gstate

def xor (a b : Gstate) : Gstate where
  sync := a.sync ^^ b.sync
  type := a.type ^^^ b.type
  id := a.id ^^^ b.id
  size := a.size ^^^ b.size
  pair := (a.pair.1 ^^^ b.pair.1, a.pair.2 ^^^ b.pair.2)

def iszero (a : Gstate) : Bool := a == {}

def hasorphans (a : Gstate) : Bool := a.size != 0

def getorphans (a : Gstate) : ℕ := (a.size &&& 0x1ff) % 256

def hasmove (a : Gstate) : Bool := a.type &&& 0x700 != 0

def needssuperblock (a : Gstate) : Bool := a.size >>> 9 != 0

def hasmovehere (a : Gstate) (pair : Pair) : Bool :=
  a.hasmove && !lfsPairCmp a.pair pair

/-- `delta.tag &= ~LFS_MKTAG(0, 0, 0x3ff)`: the low ten bits never reach the
disk. -/
def dropSize (a : Gstate) : Gstate := { a with size := 0 }

end Gstate

/-! ## Entries of a commit -/

structure Superblock where
  version : ℕ
  blockSize : ℕ
  blockCount : ℕ
  nameMax : ℕ
  fileMax : ℕ
  attrMax : ℕ
  deriving DecidableEq, Repr

/-- The data of a tag.  Eight-byte structures (tails, directory and file
structs) share the constructor `pair`, as the source reads them into one
`[u32; 2]`. -/
inductive Payload
  | bytes (data : Bytes)
  | pair (words : Pair)
  | gstate (delta : Gstate)
  | superblock (sb : Superblock)
  deriving DecidableEq, Repr

def Payload.empty : Payload := .bytes []

/-- The eight bytes read into a `[u32; 2]`; other payloads are never read so. -/
def Payload.toPair : Payload → Pair
  | .pair words => words
  | _ => (0, 0)

def Payload.toBytes : Payload → Bytes
  | .bytes data => data
  | _ => []

/-- A committed tag with its data. -/
abbrev Attr := Tag × Payload

end Littlefs
