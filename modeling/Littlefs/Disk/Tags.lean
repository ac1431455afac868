import Littlefs.Tag
import Littlefs.Lib.Words

/-!
# Tag words and the checksum

On disk a tag is a big-endian word, and every word is xor-ed with the word of the
tag before it.  The top bit is the validity bit.  A CRC tag with an odd chunk
flips that bit of the word behind it, so that erased bytes never read as a valid
tag.
-/

namespace Littlefs.Disk

open Words

/-- The fields of a tag word; the validity bit is not one of them. -/
def tagOf (word : Word) : Tag where
  type := word.toNat / 2 ^ 20 % 2 ^ 11
  id := word.toNat / 2 ^ 10 % 2 ^ 10
  size := word.toNat % 2 ^ 10

/-- `lfs_tag_isvalid`. -/
def isvalid (word : Word) : Bool := word &&& 0x80000000 == 0

/-- `lfs_mktag`. -/
def mktag (type id size : ℕ) : Word :=
  BitVec.ofNat 32 type <<< 20 ||| BitVec.ofNat 32 id <<< 10 ||| BitVec.ofNat 32 size

/-- `lfs_mktag(0, diff as u32, 0)`. -/
def mkdiff (diff : ℤ) : Word := BitVec.ofInt 32 diff <<< 10

/-- `LFS_TYPE_FCRC`. -/
def tyFcrc := 0x5ff

def nullWord : Word := 0xffffffff

def rtable : List Word :=
  [0x00000000, 0x1db71064, 0x3b6e20c8, 0x26d930ac, 0x76dc4190, 0x6b6b51f4, 0x4db26158, 0x5005713c,
    0xedb88320, 0xf00f9344, 0xd6d6a3e8, 0xcb61b38c, 0x9b64c2b0, 0x86d3d2d4, 0xa00ae278, 0xbdbdf21c]

def crcNibble (crc : Word) (byte : Octet) : Word :=
  (crc >>> 4) ^^^ rtable.getD ((crc ^^^ byte.setWidth 32) &&& 0xf).toNat 0

/-- `lfs_crc`. -/
def lfsCrc (crc : Word) (buffer : List Octet) : Word :=
  buffer.foldl (fun crc byte => crcNibble (crcNibble crc byte) (byte >>> 4)) crc

theorem lfsCrc_append (crc : Word) (front back : List Octet) :
    lfsCrc crc (front ++ back) = lfsCrc (lfsCrc crc front) back :=
  List.foldl_append

/-! ## Fields -/

theorem isvalid_eq (word : Word) : isvalid word = !word.msb := by
  have htop : (0x80000000 : Word) = BitVec.twoPow 32 31 := by decide
  rw [isvalid, htop, BitVec.and_twoPow, BitVec.msb_eq_getLsbD_last]
  cases word.getLsbD 31 <;> rfl

/-- Only the lower 31 bits count for the fields. -/
theorem tagOf_congr {word word' : Word} (hsame : word.toNat % 2 ^ 31 = word'.toNat % 2 ^ 31) :
    tagOf word = tagOf word' := by
  have htype : word.toNat / 2 ^ 20 % 2 ^ 11 = word'.toNat / 2 ^ 20 % 2 ^ 11 := by omega
  have hid : word.toNat / 2 ^ 10 % 2 ^ 10 = word'.toNat / 2 ^ 10 % 2 ^ 10 := by omega
  have hsize : word.toNat % 2 ^ 10 = word'.toNat % 2 ^ 10 := by omega
  simp only [tagOf, htype, hid, hsize]

theorem toNat_clear (word : Word) : (word &&& 0x7fffffff).toNat = word.toNat % 2 ^ 31 := by
  rw [BitVec.toNat_and]
  exact Nat.and_two_pow_sub_one_eq_mod word.toNat 31

@[simp]
theorem tagOf_clear (word : Word) : tagOf (word &&& 0x7fffffff) = tagOf word := by
  apply tagOf_congr
  rw [toNat_clear, Nat.mod_mod]

@[simp]
theorem isvalid_clear (word : Word) : isvalid (word &&& 0x7fffffff) = true := by
  have htop : (0x7fffffff : Word).msb = false := by decide
  rw [isvalid_eq, BitVec.msb_and, htop, Bool.and_false, Bool.not_false]

theorem clear_eq_self {word : Word} (hvalid : isvalid word = true) :
    word &&& 0x7fffffff = word := by
  have hmsb : word.msb = false := by simpa [isvalid_eq] using hvalid
  have hlt : word.toNat < 2 ^ 31 := by
    have hdecide := BitVec.msb_eq_decide word
    rw [hmsb] at hdecide
    simpa using hdecide
  apply BitVec.eq_of_toNat_eq
  rw [toNat_clear, Nat.mod_eq_of_lt hlt]

theorem toNat_mktag {type id size : ℕ} (htype : type < 2 ^ 11) (hid : id < 2 ^ 10)
    (hsize : size < 2 ^ 10) :
    (mktag type id size).toNat = type * 2 ^ 20 + id * 2 ^ 10 + size := by
  have hlow : id * 2 ^ 10 ||| size = id * 2 ^ 10 + size := by
    rw [← Nat.shiftLeft_eq, Nat.shiftLeft_add_eq_or_of_lt hsize]
  have hhigh : type * 2 ^ 20 ||| (id * 2 ^ 10 + size) = type * 2 ^ 20 + (id * 2 ^ 10 + size) := by
    rw [← Nat.shiftLeft_eq type, Nat.shiftLeft_add_eq_or_of_lt (by omega)]
  simp only [mktag, BitVec.toNat_or, BitVec.toNat_shiftLeft, BitVec.toNat_ofNat, Nat.shiftLeft_eq]
  rw [Nat.mod_eq_of_lt (a := type) (by omega), Nat.mod_eq_of_lt (a := id) (by omega),
    Nat.mod_eq_of_lt (a := size) (by omega), Nat.mod_eq_of_lt (a := type * 2 ^ 20) (by omega),
    Nat.mod_eq_of_lt (a := id * 2 ^ 10) (by omega), Nat.or_assoc, hlow, hhigh]
  omega

theorem tagOf_mktag {type id size : ℕ} (htype : type < 2 ^ 11) (hid : id < 2 ^ 10)
    (hsize : size < 2 ^ 10) : tagOf (mktag type id size) = ⟨type, id, size⟩ := by
  rw [tagOf, toNat_mktag htype hid hsize, Tag.mk.injEq]
  constructor
  · omega
  · constructor <;> omega

theorem isvalid_mktag {type id size : ℕ} (htype : type < 2 ^ 11) (hid : id < 2 ^ 10)
    (hsize : size < 2 ^ 10) : isvalid (mktag type id size) = true := by
  rw [isvalid_eq, BitVec.msb_eq_decide, toNat_mktag htype hid hsize]
  simp only [Bool.not_eq_true', decide_eq_false_iff_not, not_le]
  omega

/-! ## The validity bit of the next tag -/

/-- `ptag ^= (lfs_tag_chunk(tag) & 1) << 31`. -/
def perturb (chunk : ℕ) (word : Word) : Word := word ^^^ BitVec.ofNat 32 (chunk &&& 1) <<< 31

theorem perturb_eq (chunk : ℕ) (word : Word) :
    perturb chunk word = word ^^^ if chunk % 2 = 1 then 0x80000000 else 0 := by
  rw [perturb, Nat.and_one_is_mod]
  obtain heven | hodd := Nat.mod_two_eq_zero_or_one chunk
  · simp [heven]
  · simp [hodd]

@[simp]
theorem tagOf_perturb (chunk : ℕ) (word : Word) : tagOf (perturb chunk word) = tagOf word := by
  apply tagOf_congr
  rw [perturb_eq, BitVec.toNat_xor]
  have hmod : ∀ mask : ℕ, mask % 2 ^ 31 = 0 →
      (word.toNat ^^^ mask) % 2 ^ 31 = word.toNat % 2 ^ 31 := by
    intro mask hmask
    rw [Nat.xor_mod_two_pow, hmask, Nat.xor_zero]
  apply hmod
  split <;> rfl

theorem msb_perturb (chunk : ℕ) (word : Word) :
    (perturb chunk word).msb = (word.msb ^^ decide (chunk % 2 = 1)) := by
  rw [perturb_eq, BitVec.msb_xor]
  have htop : (0x80000000 : Word).msb = true := by decide
  by_cases hodd : chunk % 2 = 1
  · rw [if_pos hodd, htop, decide_eq_true hodd]
  · simp [hodd]

theorem msb_ofBeBytes (a b c d : Octet) : (ofBeBytes [a, b, c, d]).msb = a.msb := by
  simp only [ofBeBytes, BitVec.msb_eq_getLsbD_last, BitVec.getLsbD_append]
  simp

end Littlefs.Disk
