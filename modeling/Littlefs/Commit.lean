import Littlefs.Traverse
import Littlefs.Alloc

/-!
# Writing one metadata pair

A commit is appended behind the ones on the current block, or the live tags are
compacted onto the other block of the pair.  Compaction replaces a block that
is worn out or answers `Corrupt`, and splits a directory that outgrows half a
block.  The device sees one program access per commit; if it fails, the block
keeps the commits it had and its erased state is gone.
-/

namespace Littlefs

/-- `LFS_OK_*`. -/
inductive CommitState
  | ok
  | relocated
  | dropped
  | orphaned
  deriving DecidableEq, Repr

def Config.effectiveMax (cfg : Config) : ℕ :=
  if cfg.metadataMax ≠ 0 then cfg.metadataMax else cfg.blockSize

/-- `commit.end`: eight bytes are kept free for the checksum. -/
def Config.commitEnd (cfg : Config) : ℕ := cfg.effectiveMax - 8

/-- The first word of a block, whatever it holds. -/
def BlockImage.firstWord (image : BlockImage) : ℕ :=
  if image.data = [] then image.rev else readWord image.data 0

/-! ## Sizes -/

/-- `lfs_dir_commitattr`: where the commit stands after `tag`, if it fits. -/
def lfsDirCommitattr (stop off : ℕ) (tag : Tag) : Except Error ℕ :=
  if stop < off + tag.dsize then .error .noSpace else .ok (off + tag.dsize)

def commitAttrs (stop : ℕ) (off : ℕ) (attrs : List Attr) : Except Error ℕ :=
  attrs.foldlM (fun off attr => lfsDirCommitattr stop off attr.1) off

/-- The loop of `lfs_dir_commitcrc`: a tag spans at most `0x3fe` bytes, and the
last one follows the forward CRC, unless the block ends there. -/
def commitcrcGo (cfg : Config) (stop : ℕ) : ℕ → ℕ → Except Error ℕ
  | 0, off => .ok off
  | fuel + 1, off =>
      if off < stop then
        let noff := min (stop - (off + 4)) 0x3fe + (off + 4)
        let noff := if noff < stop then min noff (stop - 20) else noff
        if stop ≤ noff ∧ noff ≤ cfg.blockSize - cfg.progSize then
          match lfsDirCommitattr cfg.commitEnd off ⟨0x5ff, 0x3ff, 8⟩ with
          | .error e => .error e
          | .ok _ => commitcrcGo cfg stop fuel noff
        else
          commitcrcGo cfg stop fuel noff
      else
        .ok off

/-- `lfs_dir_commitcrc`: the offset behind the checksum, and whether the bytes
from there on have a forward CRC. -/
def lfsDirCommitcrc (cfg : Config) (off : ℕ) : Except Error (ℕ × Bool) :=
  let stop := lfsAlignup (min (off + 20) cfg.blockSize) cfg.progSize
  match commitcrcGo cfg stop (stop - off + 1) off with
  | .error e => .error e
  | .ok off => .ok (off, stop ≤ cfg.blockSize - cfg.progSize)

def tailTag (split : Bool) : Tag := ⟨tyTail + if split then 1 else 0, 0x3ff, 8⟩

def movestateTag : Tag := ⟨tyMovestate, 0x3ff, 12⟩

/-! ## New pairs and worn pairs -/

/-- `lfs_dir_alloc`. -/
def lfsDirAlloc : FsM Mdir := do
  let block1 ← lfsAlloc
  let block0 ← lfsAlloc
  let lfs ← get
  let rev ←
    match ← tryError (readBlock block0) with
    | .ok image => pure image.firstWord
    | .error .corrupt => pure 0
    | .error e => failWith e
  let rev :=
    if 0 < lfs.cfg.blockCycles then lfsAlignup rev ((lfs.cfg.blockCycles.toNat + 1) ||| 1)
    else rev
  return { pair := (block0, block1), rev := rev, off := 4, count := 0, erased := false,
           split := false, tail := (blockNull, blockNull) }

/-- `lfs_dir_needsrelocation`. -/
def lfsDirNeedsrelocation (cfg : Config) (dir : Mdir) : Bool :=
  0 < cfg.blockCycles && (dir.rev + 1) % ((cfg.blockCycles.toNat + 1) ||| 1) == 0

/-! ## Compaction -/

/-- The exit taken when the new block answers `Corrupt`: replace it, unless the
pair is the superblock pair. -/
def compactRelocate (dir : Mdir) (tired : Bool) : FsM Mdir := do
  lfsAllocLookahead dir.pair.2
  if !lfsPairCmp dir.pair (0, 1) then
    failWith .noSpace
  match ← tryError lfsAlloc with
  | .ok block => return { dir with pair := (dir.pair.1, block) }
  | .error e =>
      if e ≠ .noSpace ∨ ¬tired then
        failWith e
      return dir

/-- Erase the new block and collect the live tags and the tail. -/
def compactTags (attrs : List Mattr) (source : Mdir) (first last : ℕ) (dir : Mdir) :
    FsM (List Attr × ℕ) := do
  lfsBdErase dir.pair.2
  let _ ← readLog source
  let lfs ← get
  let tags := traverseCompact lfs.disk source attrs first last
  let tags := if lfsPairIsnull dir.tail then tags
    else tags ++ [(tailTag dir.split, Payload.pair dir.tail)]
  let off ← liftExcept (commitAttrs lfs.cfg.commitEnd 4 tags)
  return (tags, off)

/-- The global state this commit adds to `dir`, its own part included. -/
def compactDelta (dir : Mdir) (relocated : Bool) : FsM Gstate := do
  let lfs ← get
  let delta := if relocated then lfs.gdelta else (lfs.gdisk.xor lfs.gstate).xor lfs.gdelta
  lfsDirGetgstate dir delta.dropSize

/-- Write the compacted block; the result is the offset behind its commit. -/
def compactProg (dir : Mdir) (tags : List Attr) (off : ℕ) (delta : Gstate) : FsM ℕ := do
  let lfs ← get
  let (tags, off) ←
    if delta.iszero then pure (tags, off)
    else do
      let off ← liftExcept (lfsDirCommitattr lfs.cfg.commitEnd off movestateTag)
      pure (tags ++ [(movestateTag, Payload.gstate delta)], off)
  let (off, erased) ← liftExcept (lfsDirCommitcrc lfs.cfg off)
  devProg dir.pair.2 { rev := dir.rev }
    { rev := dir.rev, commits := [{ tags := tags, off := off }], erased := erased }
  return off

def lfsDirCompactGo (attrs : List Mattr) (source : Mdir) (first last : ℕ) :
    ℕ → Mdir → Bool → Bool → FsM (Mdir × CommitState)
  | 0, _, _, _ => throw .outOfFuel
  | fuel + 1, dir, tired, relocated => do
      match ← tryError (compactTags attrs source first last dir) with
      | .error .corrupt =>
          let dir ← compactRelocate dir tired
          lfsDirCompactGo attrs source first last fuel dir false true
      | .error e => failWith e
      | .ok (tags, off) =>
          let delta ← compactDelta dir relocated
          match ← tryError (compactProg dir tags off delta) with
          | .error .corrupt =>
              let dir ← compactRelocate dir tired
              lfsDirCompactGo attrs source first last fuel dir false true
          | .error e => failWith e
          | .ok off =>
              modify fun lfs => { lfs with
                gdelta := {}
                gdisk := if relocated then lfs.gdisk else lfs.gstate }
              return ({ dir with pair := dir.pair.swap, count := last - first, off := off },
                if relocated then .relocated else .ok)

/-- `lfs_dir_compact`. -/
def lfsDirCompact (dir : Mdir) (attrs : List Mattr) (source : Mdir) (first last : ℕ) :
    FsM (Mdir × CommitState) := do
  let lfs ← get
  let tired := lfsDirNeedsrelocation lfs.cfg dir
  let dir := { dir with rev := dir.rev + 1 }
  if tired && lfsPairCmp dir.pair (0, 1) then
    -- written too often: move on before the block wears out, if there is room
    let dir ←
      match ← tryError lfsAlloc with
      | .ok block => pure { dir with pair := (dir.pair.1, block) }
      | .error .noSpace => pure dir
      | .error e => failWith e
    lfsDirCompactGo attrs source first last retryFuel dir false true
  else
    lfsDirCompactGo attrs source first last retryFuel dir tired false

/-! ## Splitting -/

/-- `lfs_dir_split`: entries from `split` on go to a new pair behind `dir`. -/
def lfsDirSplit (dir : Mdir) (attrs : List Mattr) (source : Mdir) (split last : ℕ) :
    FsM Mdir := do
  let tail ← lfsDirAlloc
  let tail := { tail with split := dir.split, tail := dir.tail }
  let (tail, _) ← lfsDirCompact tail attrs source split last
  if split = 0 then
    modify fun lfs => { lfs with
      root := if lfsPairCmp dir.pair lfs.root then lfs.root else tail.pair }
  return { dir with tail := tail.pair, split := true }

/-- The inner loop of `lfs_dir_splittingcompact`: halve the range from `split`
until it fits. -/
def findSplit (disk : Block → BlockImage) (cfg : Config) (attrs : List Mattr)
    (source : Mdir) (last : ℕ) : ℕ → ℕ → ℕ
  | 0, split => split
  | fuel + 1, split =>
      if 1 < last - split then
        let size := attrsSize (traverseCompact disk source attrs split last)
        if last - split < 0xff ∧
            size ≤ min (cfg.effectiveMax - 40) (lfsAlignup (cfg.effectiveMax / 2) cfg.progSize) then
          split
        else
          findSplit disk cfg attrs source last fuel (split + (last - split) / 2)
      else
        split

/-- The outer loop.  `split` is not set back to `first`, so a second turn finds
an empty range. -/
def splitLoop (attrs : List Mattr) (source : Mdir) (first : ℕ) :
    ℕ → Mdir → ℕ → ℕ → FsM (Mdir × ℕ)
  | 0, dir, _, last => return (dir, last)
  | fuel + 1, dir, split, last => do
      if 1 < last - split then
        let _ ← readLog source
      let lfs ← get
      let split := findSplit lfs.disk lfs.cfg attrs source last (last - split) split
      if split = first ∨ last ≤ split then
        return (dir, last)
      match ← tryError (lfsDirSplit dir attrs source split last) with
      | .error .noSpace => return (dir, last)
      | .error e => failWith e
      | .ok dir => splitLoop attrs source first fuel dir split split

/-- `lfs_dir_splittingcompact` with `source` the directory itself. -/
def lfsDirSplittingcompact (dir : Mdir) (attrs : List Mattr) (first last : ℕ) :
    FsM (Mdir × CommitState) := do
  let source := dir
  let (dir, last) ← splitLoop attrs source first 2 dir first last
  let lfs ← get
  if lfsDirNeedsrelocation lfs.cfg dir && !lfsPairCmp dir.pair (0, 1) then
    let size ← lfsFsSize
    if (lfs.blockCount : ℤ) - size > (lfs.blockCount : ℤ) / 8 then
      -- expand the superblock: everything moves behind it
      match ← tryError (lfsDirSplit dir attrs source first last) with
      | .error .noSpace => lfsDirCompact dir attrs source first last
      | .error e => failWith e
      | .ok dir => lfsDirCompact dir attrs source first 1
    else
      lfsDirCompact dir attrs source first last
  else
    lfsDirCompact dir attrs source first last

/-! ## Appending -/

/-- The sources of the `LFS_FROM_MOVE` entries are read while they are copied. -/
def readSources : List Mattr → FsM Unit
  | [] => return ()
  | mattr :: attrs => do
      match mattr.buffer with
      | .mdir source =>
          let _ ← readLog source
          readSources attrs
      | _ => readSources attrs

/-- A failed append has written over the erased bytes. -/
def spoil (block : Block) : FsM Unit :=
  modify fun lfs => { lfs with
    disk := Function.update lfs.disk block { lfs.disk block with erased := false } }

/-- The tags of an append behind the ones on disk, and the offset they reach. -/
def appendTags (dir : Mdir) (attrs : List Mattr) : FsM (List Attr × ℕ) := do
  readSources attrs
  let lfs ← get
  let tags := traverseAttrs lfs.disk attrs
  let off ← liftExcept (commitAttrs lfs.cfg.commitEnd dir.off tags)
  return (tags, off)

/-- Program an append.  Bytes over a part of the block that is not erased read
back wrong. -/
def appendProg (dir : Mdir) (tags : List Attr) (off : ℕ) : FsM ℕ := do
  let lfs ← get
  let (off, erased) ← liftExcept (lfsDirCommitcrc lfs.cfg off)
  let image := lfs.disk dir.pair.1
  let torn := { image with erased := false }
  if image.erased ∧ (image.commits.getLast?.map Commit.off).getD 0 = dir.off then
    devProg dir.pair.1 torn
      { image with commits := image.commits ++ [{ tags := tags, off := off }], erased := erased }
    return off
  else
    failWith .corrupt

/-- The append of `lfs_dir_relocatingcommit`; `none` sends the caller to a
compaction. -/
def appendCommit (dir : Mdir) (attrs : List Mattr) : FsM (Option Mdir) := do
  match ← tryError (appendTags dir attrs) with
  | .error e =>
      if e = .noSpace ∨ e = .corrupt then
        spoil dir.pair.1
        return none
      else
        failWith e
  | .ok (tags, off) =>
      let lfs ← get
      let delta := ((lfs.gstate.xor lfs.gdisk).xor lfs.gdelta).dropSize
      let written ←
        if delta.iszero then pure (Except.ok (tags, off))
        else do
          let delta ← lfsDirGetgstate dir delta
          match lfsDirCommitattr lfs.cfg.commitEnd off movestateTag with
          | .error e => pure (Except.error e)
          | .ok off => pure (Except.ok (tags ++ [(movestateTag, Payload.gstate delta)], off))
      match written with
      | .error _ =>
          spoil dir.pair.1
          return none
      | .ok (tags, off) =>
          match ← tryError (appendProg dir tags off) with
          | .error e =>
              if e = .noSpace ∨ e = .corrupt then
                spoil dir.pair.1
                return none
              else
                failWith e
          | .ok off =>
              modify fun lfs => { lfs with gdisk := lfs.gstate, gdelta := {} }
              return some { dir with off := off }

end Littlefs
