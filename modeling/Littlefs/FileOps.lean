import Littlefs.Handle

/-!
# Calls on an open file

The calls of `file/ops.rs` that move in an open file and change its length.  What the
cache of a file holds is not modelled, only the bytes under it; a seek takes its
shortcut when the new position is inside that cache, so the window of the cache is an
argument of the calls that seek.
-/

namespace Littlefs

/-- `as u32`. -/
def asWord (value : ℤ) : ℕ := (value % 2 ^ 32).toNat

/-- `as i32`. -/
def asSigned (word : ℕ) : ℤ := if word < 2 ^ 31 then word else word - 2 ^ 32

/-- `LFS_SEEK_SET`. -/
def lfsSeekSet : ℤ := 0

/-- `LFS_SEEK_CUR`. -/
def lfsSeekCur : ℤ := 1

/-- `LFS_SEEK_END`. -/
def lfsSeekEnd : ℤ := 2

/-- The bytes of a block that `file.cache` holds. -/
structure CacheWindow where
  off : ℕ
  size : ℕ
  deriving DecidableEq, Repr

/-- `lfs_file_tell_`. -/
def lfsFileTell (key : ℕ) : FsM ℕ := do
  let file ← getHandle key
  return file.pos

/-- The length of a file, with what is written but not flushed. -/
def Handle.length (file : Handle) : ℕ :=
  if file.flags.writing then max file.pos file.ctz.size else file.ctz.size

/-- `lfs_file_size_`. -/
def lfsFileSize (key : ℕ) : FsM ℕ := do
  let file ← getHandle key
  return file.length

/-! ## Reading -/

/-- The block and the offset that the position of a file is read at. -/
def readPlace (file : Handle) : FsM (Block × ℕ) :=
  if file.flags.inline then pure (blockInline, file.pos)
  else lfsCtzFind file.ctz.head file.ctz.size file.pos

/-- `n` bytes from the offset a file stands at. -/
def readHere (file : Handle) (n : ℕ) : FsM Bytes :=
  if file.flags.inline then inlineRead file file.off n
  else do
    let image ← readBlock file.block
    return slice image.data file.off n

/-- Look up the block of the position, unless the file stands in it. -/
def standInBlock (key : ℕ) : FsM Unit := do
  let lfs ← get
  let file ← getHandle key
  if ¬file.flags.reading ∨ file.off = lfs.cfg.blockSize then
    let (block, off) ← readPlace file
    modifyHandle key fun file =>
      { file with block := block, off := off, flags := { file.flags with reading := true } }

/-- Up to `n` bytes from the block of the position. -/
def readTurn (key n : ℕ) : FsM Bytes := do
  standInBlock key
  let lfs ← get
  let file ← getHandle key
  let diff := min n (lfs.cfg.blockSize - file.off)
  let bytes ← readHere file diff
  modifyHandle key fun file => { file with pos := file.pos + diff, off := file.off + diff }
  return bytes

/-- The loop of `lfs_file_flushedread` on an open file. -/
def flushedreadOpen (key : ℕ) : ℕ → ℕ → FsM Bytes
  | 0, _ => throw .outOfFuel
  | fuel + 1, n => do
      if n = 0 then
        return []
      let bytes ← readTurn key n
      let rest ← flushedreadOpen key fuel (n - bytes.length)
      return bytes ++ rest

/-- `lfs_file_flushedread` on an open file. -/
def lfsFileFlushedreadOpen (key n : ℕ) : FsM Bytes := do
  if n = 0 then
    return []
  let file ← getHandle key
  if file.ctz.size ≤ file.pos then
    return []
  flushedreadOpen key (n + 2) (min n (file.ctz.size - file.pos))

/-- `lfs_file_read_`. -/
def lfsFileRead (key n : ℕ) : FsM Bytes := do
  let file ← getHandle key
  if file.flags.writing then
    lfsFileFlush key
  lfsFileFlushedreadOpen key n

/-! ## Seeking -/

/-- `lfs_file_seek_`. -/
def lfsFileSeek (key : ℕ) (window : CacheWindow) (off whence : ℤ) : FsM ℕ := do
  let lfs ← get
  let file ← getHandle key
  let npos :=
    if whence = lfsSeekSet then asWord off
    else if whence = lfsSeekCur then asWord (file.pos + off)
    else if whence = lfsSeekEnd then asWord (file.length + off)
    else file.pos
  if lfs.fileMax < npos then
    failWith .invalid
  if file.pos = npos then
    return npos
  let opos := lfsCtzIndex lfs.cfg.blockSize file.pos
  let place := lfsCtzIndex lfs.cfg.blockSize npos
  if file.flags.reading ∧ file.off ≠ lfs.cfg.blockSize ∧ opos.1 = place.1 ∧
      window.off ≤ place.2 ∧ place.2 < window.off + window.size then
    modifyHandle key fun file => { file with pos := npos, off := place.2 }
    return npos
  lfsFileFlush key
  modifyHandle key fun file => { file with pos := npos }
  return npos

/-- `lfs_file_rewind_`. -/
def lfsFileRewind (key : ℕ) (window : CacheWindow) : FsM Unit := do
  let _ ← lfsFileSeek key window 0 lfsSeekSet

/-! ## Truncating -/

/-- Turn a file into one whose data are inline, and return the window of its cache. -/
def revertInline (key : ℕ) (window : CacheWindow) (size : ℕ) : FsM CacheWindow := do
  let _ ← lfsFileSeek key window 0 lfsSeekSet
  let lfs ← get
  if lfs.cfg.cacheSize < size then
    throw (.panic .sliceRange)
  let data ← lfsFileFlushedreadOpen key size
  modifyHandle key fun file =>
    { file with
      ctz := { head := blockInline, size := size }
      flags := { file.flags with dirty := true, reading := true, inline := true }
      cache := overwrite file.cache 0 (slice data 0 size) }
  return { off := 0, size := lfs.cfg.cacheSize }

/-- Cut a block list off behind `size` bytes. -/
def shrinkList (key size : ℕ) : FsM Unit := do
  lfsFileFlush key
  let file ← getHandle key
  let (block, _) ← lfsCtzFind file.ctz.head file.ctz.size (size - 1)
  modifyHandle key fun file =>
    { file with
      block := block
      pos := size
      ctz := { head := block, size := size }
      flags := { file.flags with dirty := true, reading := true } }

/-- Write zeros up to `size`. -/
def writeZeros (key size : ℕ) : ℕ → FsM Unit
  | 0 => throw .outOfFuel
  | fuel + 1 => do
      let file ← getHandle key
      if file.pos < size then
        lfsFileWrite key [0]
        writeZeros key size fuel
      else
        return ()

/-- Lengthen a file of `oldsize` bytes with zeros. -/
def growFile (key : ℕ) (window : CacheWindow) (oldsize size : ℕ) : FsM Unit := do
  let _ ← lfsFileSeek key window 0 lfsSeekEnd
  writeZeros key size (size - oldsize + 1)

/-- `lfs_file_truncate_`, with the windows that its two seeks meet. -/
def lfsFileTruncate (key : ℕ) (first last : CacheWindow) (size : ℕ) : FsM Unit := do
  let lfs ← get
  if lfs.fileMax < size then
    failWith .invalid
  let file ← getHandle key
  let pos := file.pos
  let oldsize := file.length
  let window ←
    if size < oldsize then
      if size ≤ lfs.inlineMax then revertInline key first size
      else do
        shrinkList key size
        pure last
    else if oldsize < size then do
      growFile key first oldsize size
      pure last
    else pure last
  let _ ← lfsFileSeek key window (asSigned pos) lfsSeekSet

end Littlefs
