import Littlefs.Fetch

/-!
# Block lists of files

A file outside its metadata is a reversed skip list: block `n` begins with
`ctz n + 1` pointers, the `k`-th to block `n - 2 ^ k`.  `lfs_ctz_index` finds
the block of a position, and `lfs_ctz_traverse` visits every block from the
head down.
-/

namespace Littlefs

/-- `lfs_popc`, on 32-bit words. -/
def lfsPopc (a : ℕ) : ℕ :=
  let a := a - ((a >>> 1) &&& 0x55555555)
  let a := (a &&& 0x33333333) + ((a >>> 2) &&& 0x33333333)
  ((((a + (a >>> 4)) &&& 0x0f0f0f0f) * 0x01010101) % 2 ^ 32) >>> 24

/-- `lfs_npw2`, with its value one at `a = 1`. -/
def lfsNpw2 (a : ℕ) : ℕ := Nat.log2 (a - 1) + 1

/-- `lfs_ctz`: the exponent of two in `a`, and zero at `a = 0`. -/
def lfsCtz (a : ℕ) : ℕ := lfsNpw2 ((a &&& ((2 ^ 32 - a) % 2 ^ 32)) + 1) - 1

/-- `lfs_ctz_index`: the block of position `size`, and the offset inside it. -/
def lfsCtzIndex (blockSize size : ℕ) : ℕ × ℕ :=
  let b := blockSize - 8
  let i := size / b
  if i = 0 then (0, size)
  else
    let i := (size - 4 * (lfsPopc (i - 1) + 2)) / b
    (i, size - b * i - 4 * lfsPopc i)

/-- The little-endian word at `off`. -/
def readWord (data : Bytes) (off : ℕ) : Block :=
  data.getD off 0 + 2 ^ 8 * data.getD (off + 1) 0 + 2 ^ 16 * data.getD (off + 2) 0 +
    2 ^ 24 * data.getD (off + 3) 0

def wordBytes (word : Block) : Bytes :=
  [word % 256, word / 2 ^ 8 % 256, word / 2 ^ 16 % 256, word / 2 ^ 24 % 256]

/-- `lfs_ctz_find`: the steps of the search from block `current`, at address
`head`, down to block `target`. -/
def lfsCtzFindGo (target : ℕ) : ℕ → Block → ℕ → FsM Block
  | 0, _, _ => throw .outOfFuel
  | fuel + 1, head, current =>
      if current ≤ target then
        return head
      else do
        let skip := min (lfsNpw2 (current - target + 1) - 1) (lfsCtz current)
        let image ← readBlock head
        lfsCtzFindGo target fuel (readWord image.data (4 * skip)) (current - 2 ^ skip)

def lfsCtzFind (head : Block) (size pos : ℕ) : FsM (Block × ℕ) := do
  if size = 0 then
    return (blockNull, 0)
  let lfs ← get
  let current := (lfsCtzIndex lfs.cfg.blockSize (size - 1)).1
  let target := lfsCtzIndex lfs.cfg.blockSize pos
  let block ← lfsCtzFindGo target.1 (current + 1) head current
  return (block, target.2)

section

variable {α : Type} (cb : α → Block → FsM α)

/-- The loop of `lfs_ctz_traverse`; the callback folds over `α`, the state that
the closures of the source capture. -/
def lfsCtzTraverseGo : ℕ → Block → ℕ → α → FsM α
  | 0, _, _, _ => throw .outOfFuel
  | fuel + 1, head, index, acc => do
      let acc ← cb acc head
      if index = 0 then
        return acc
      let image ← readBlock head
      let data := image.data
      if index % 2 = 1 then
        lfsCtzTraverseGo fuel (readWord data 0) (index - 1) acc
      else
        let acc ← cb acc (readWord data 0)
        lfsCtzTraverseGo fuel (readWord data 4) (index - 2) acc

/-- `lfs_ctz_traverse`. -/
def lfsCtzTraverse (head : Block) (size : ℕ) (acc : α) : FsM α := do
  if size = 0 then
    return acc
  let lfs ← get
  let index := (lfsCtzIndex lfs.cfg.blockSize (size - 1)).1
  lfsCtzTraverseGo cb (index + 1) head index acc

end

end Littlefs
