import Littlefs.Alloc

/-!
# Reading and writing file data

The caches of a file write through here: `file.cache` holds the data of an
inline file, and the bytes of every other file are on its blocks.  A block that
answers `Corrupt` is marked in the lookahead window and replaced.
-/

namespace Littlefs

/-- `data` with `bytes` written at `off`. -/
def overwrite (data : Bytes) (off : ℕ) (bytes : Bytes) : Bytes :=
  data.take off ++ List.replicate (off - data.length) 0 ++ bytes ++ data.drop (off + bytes.length)

/-- `n` bytes from `off`, zero past the end. -/
def slice (data : Bytes) (off n : ℕ) : Bytes :=
  (List.range n).map fun i => data.getD (off + i) 0

/-- `lfs_bd_prog` of file data. -/
def progData (block : Block) (off : ℕ) (bytes : Bytes) : FsM Unit := do
  let lfs ← get
  let image := lfs.disk block
  devProg block image { image with data := overwrite image.data off bytes }

def errFile (key : ℕ) (e : Error) : FsM Unit := do
  modifyHandle key fun file => { file with flags := { file.flags with erred := true } }
  failWith e

/-- The result of a call whose error marks the file `ERRED`. -/
def orErr {α : Type} (key : ℕ) (program : FsM α) : FsM α := do
  match ← tryError program with
  | .ok value => return value
  | .error e =>
      errFile key e
      failWith e

/-- `lfs_dir_getread` of an inline file: from the cache as far as it reaches,
otherwise from the metadata. -/
def inlineRead (file : Handle) (off n : ℕ) : FsM Bytes := do
  let lfs ← get
  if off + n ≤ lfs.cfg.cacheSize then
    return slice file.cache off n
  else
    let attr ← lfsDirGet file.m ⟨0x7ff, true⟩ ⟨tyInlinestruct, file.id, 0⟩
    return slice attr.2.toBytes off n

/-! ## Relocation and outlining -/

/-- `lfs_file_relocate`. -/
def lfsFileRelocateGo (key : ℕ) : ℕ → FsM Unit
  | 0 => throw .outOfFuel
  | fuel + 1 => do
      let nblock ← lfsAlloc
      match ← tryError (lfsBdErase nblock) with
      | .error .corrupt =>
          lfsAllocLookahead nblock
          lfsFileRelocateGo key fuel
      | .error e => failWith e
      | .ok _ =>
          let file ← getHandle key
          let data ←
            if file.off = 0 then pure []
            else if file.flags.inline then inlineRead file 0 file.off
            else do
              let image ← readBlock file.block
              pure (slice image.data 0 file.off)
          match ← tryError (if file.off = 0 then pure () else progData nblock 0 data) with
          | .error .corrupt =>
              lfsAllocLookahead nblock
              lfsFileRelocateGo key fuel
          | .error e => failWith e
          | .ok _ =>
              modifyHandle key fun file =>
                { file with block := nblock, flags := { file.flags with writing := true } }

def lfsFileRelocate (key : ℕ) : FsM Unit := lfsFileRelocateGo key retryFuel

/-- `lfs_file_outline`. -/
def lfsFileOutline (key : ℕ) : FsM Unit := do
  modifyHandle key fun file => { file with off := file.pos }
  lfsAllocCkpoint
  lfsFileRelocate key
  modifyHandle key fun file => { file with flags := { file.flags with inline := false } }

/-! ## Extending the block list -/

/-- The pointers of block `index`, whose predecessor is `head`. -/
def ctzPointers : ℕ → ℕ → Block → FsM Bytes
  | 0, _, _ => return []
  | skips + 1, i, nhead => do
      if skips = 0 then
        return wordBytes nhead
      let image ← readBlock nhead
      let rest ← ctzPointers skips (i + 1) (readWord image.data (4 * i))
      return wordBytes nhead ++ rest

/-- `lfs_ctz_extend`. -/
def lfsCtzExtendGo (head : Block) (size : ℕ) : ℕ → FsM (Block × ℕ)
  | 0 => throw .outOfFuel
  | fuel + 1 => do
      let nblock ← lfsAlloc
      match ← tryError (lfsBdErase nblock) with
      | .error .corrupt =>
          lfsAllocLookahead nblock
          lfsCtzExtendGo head size fuel
      | .error e => failWith e
      | .ok _ =>
          if size = 0 then
            return (nblock, 0)
          let lfs ← get
          let (index, noff) := lfsCtzIndex lfs.cfg.blockSize (size - 1)
          let noff := noff + 1
          if noff ≠ lfs.cfg.blockSize then
            -- the last block is incomplete: its copy replaces it
            let image ← readBlock head
            match ← tryError (progData nblock 0 (slice image.data 0 noff)) with
            | .error .corrupt =>
                lfsAllocLookahead nblock
                lfsCtzExtendGo head size fuel
            | .error e => failWith e
            | .ok _ => return (nblock, noff)
          else
            let skips := lfsCtz (index + 1) + 1
            let pointers ← ctzPointers skips 0 head
            match ← tryError (progData nblock 0 pointers) with
            | .error .corrupt =>
                lfsAllocLookahead nblock
                lfsCtzExtendGo head size fuel
            | .error e => failWith e
            | .ok _ => return (nblock, 4 * skips)

def lfsCtzExtend (head : Block) (size : ℕ) : FsM (Block × ℕ) :=
  lfsCtzExtendGo head size retryFuel

/-! ## Reading -/

/-- The loop of `lfs_file_flushedread`.  The handle is passed along, since
`lfs_file_flush` reads through a copy that is on no list. -/
def lfsFileFlushedreadGo : ℕ → Handle → ℕ → FsM (Handle × Bytes)
  | 0, _, _ => throw .outOfFuel
  | fuel + 1, file, n => do
      if n = 0 then
        return (file, [])
      let lfs ← get
      let blockSize := lfs.cfg.blockSize
      let file ←
        if ¬file.flags.reading ∨ file.off = blockSize then do
          let (block, off) ←
            if file.flags.inline then pure (blockInline, file.pos)
            else lfsCtzFind file.ctz.head file.ctz.size file.pos
          pure { file with block := block, off := off,
                           flags := { file.flags with reading := true } }
        else pure file
      let diff := min n (blockSize - file.off)
      let bytes ←
        if file.flags.inline then inlineRead file file.off diff
        else do
          let image ← readBlock file.block
          pure (slice image.data file.off diff)
      let file := { file with pos := file.pos + diff, off := file.off + diff }
      let (file, rest) ← lfsFileFlushedreadGo fuel file (n - diff)
      return (file, bytes ++ rest)

/-- `lfs_file_flushedread`. -/
def lfsFileFlushedread (file : Handle) (n : ℕ) : FsM (Handle × Bytes) :=
  if file.ctz.size ≤ file.pos then
    return (file, [])
  else
    lfsFileFlushedreadGo (n + 2) file (min n (file.ctz.size - file.pos))

/-! ## Writing -/

/-- The inner `'prog` loop. -/
def progFile (key : ℕ) (bytes : Bytes) : ℕ → FsM Unit
  | 0 => throw .outOfFuel
  | fuel + 1 => do
      let file ← getHandle key
      if file.flags.inline then
        modifyHandle key fun file =>
          { file with cache := overwrite file.cache file.off bytes }
      else
        match ← tryError (progData file.block file.off bytes) with
        | .error .corrupt =>
            orErr key (lfsFileRelocate key)
            progFile key bytes fuel
        | .error e => errFile key e
        | .ok _ => return ()

/-- The loop of `lfs_file_flushedwrite`. -/
def lfsFileFlushedwriteGo (key : ℕ) : ℕ → Bytes → FsM Unit
  | 0, _ => throw .outOfFuel
  | fuel + 1, data => do
      if data = [] then
        return ()
      let lfs ← get
      let blockSize := lfs.cfg.blockSize
      let file ← getHandle key
      if ¬file.flags.writing ∨ file.off = blockSize then
        if file.flags.inline then
          modifyHandle key fun file => { file with block := blockInline, off := file.pos }
        else
          if ¬file.flags.writing ∧ 0 < file.pos then
            let (block, _) ←
              orErr key (lfsCtzFind file.ctz.head file.ctz.size (file.pos - 1))
            modifyHandle key fun file => { file with block := block }
          lfsAllocCkpoint
          let file ← getHandle key
          let (block, off) ← orErr key (lfsCtzExtend file.block file.pos)
          modifyHandle key fun file => { file with block := block, off := off }
        modifyHandle key fun file => { file with flags := { file.flags with writing := true } }
      let file ← getHandle key
      let diff := min data.length (blockSize - file.off)
      progFile key (data.take diff) retryFuel
      modifyHandle key fun file =>
        { file with pos := file.pos + diff, off := file.off + diff }
      lfsAllocCkpoint
      lfsFileFlushedwriteGo key fuel (data.drop diff)

/-- `lfs_file_flushedwrite`. -/
def lfsFileFlushedwrite (key : ℕ) (data : Bytes) : FsM Unit := do
  if data = [] then
    return ()
  let lfs ← get
  let file ← getHandle key
  if file.flags.inline ∧ lfs.inlineMax < max (file.pos + data.length) file.ctz.size then
    orErr key (lfsFileOutline key)
  lfsFileFlushedwriteGo key (2 * data.length + 1) data

/-! ## Flushing -/

/-- Copy what the old file holds past the write position. -/
def copyRest (key : ℕ) : ℕ → Handle → FsM Unit
  | 0, _ => throw .outOfFuel
  | fuel + 1, orig => do
      let file ← getHandle key
      if file.pos < file.ctz.size then
        let (orig, data) ← lfsFileFlushedread orig 1
        lfsFileFlushedwrite key (slice data 0 1)
        copyRest key fuel orig
      else
        return ()

/-- `lfs_file_flush`. -/
def lfsFileFlush (key : ℕ) : FsM Unit := do
  modifyHandle key fun file => { file with flags := { file.flags with reading := false } }
  let file ← getHandle key
  if file.flags.writing then
    let pos := file.pos
    if file.flags.inline then
      modifyHandle key fun file => { file with pos := max pos file.ctz.size }
    else
      let orig : Handle :=
        { key := key, id := file.id, type := file.type, ctz := file.ctz,
          flags := { read := true }, pos := file.pos }
      copyRest key (file.ctz.size - file.pos + 1) orig
    modifyHandle key fun file =>
      { file with
        ctz := { head := file.block, size := file.pos }
        flags := { file.flags with writing := false, dirty := true }
        pos := pos }

end Littlefs
