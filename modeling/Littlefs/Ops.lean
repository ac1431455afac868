import Littlefs.Handle

/-!
# Operations on paths

Creating, removing and renaming entries, custom attributes, resizing, and
mounting.
-/

namespace Littlefs

/-- A fresh address for a node on the stack of an operation. -/
def freshKey (mlist : List Handle) : ℕ := (mlist.map Handle.key).foldr max 0 + 1

/-- Run a commit with `dir` on the list of open handles, so that it is kept up
to date; the node is taken off again whatever the result. -/
def withNode {α : Type} (dir : Mdir) (program : FsM α) : FsM (α × Mdir) := do
  let lfs ← get
  let key := freshKey lfs.mlist
  lfsMlistAppend { key := key, m := dir }
  let result ← tryError program
  let node ← getHandle key
  lfsMlistRemove key
  match result with
  | .ok value => return (value, node.m)
  | .error e => failWith e

/-- The last pair of the directory that `dir` is a pair of. -/
def lastPair : ℕ → Mdir → FsM Mdir
  | 0, _ => throw .outOfFuel
  | fuel + 1, dir =>
      if dir.split then do
        let dir ← lfsDirFetch dir.tail
        lastPair fuel dir
      else
        return dir

/-- `lfs_mkdir_`. -/
def lfsMkdir (path : Bytes) : FsM Unit := do
  lfsFsForceconsistency
  let found ← lfsDirFind path
  if found.tag.isSome then
    failWith .exists
  if !lfsPathIslast found.path then
    failWith .noEntry
  let lfs ← get
  let nlen := lfsPathNamelen found.path
  if lfs.nameMax < nlen then
    failWith .nameTooLong
  lfsAllocCkpoint
  let dir ← lfsDirAlloc
  let pred ← lastPair (tailFuel lfs) found.dir
  let dir ← lfsDirCommit none dir [⟨tailTag false, .data (.pair pred.tail)⟩]
  let cwd ←
    if found.dir.split then do
      lfsFsPreporphans 1
      let (_, cwd) ← withNode found.dir
        (lfsDirCommit none pred [⟨tailTag false, .data (.pair dir.pair)⟩])
      lfsFsPreporphans (-1)
      pure cwd
    else pure found.dir
  let _ ← lfsDirCommit none cwd
    [⟨⟨tyCreate, found.id, 0⟩, .data .empty⟩,
      ⟨lfsMktag tyDir found.id nlen, .data (.bytes (found.path.take nlen))⟩,
      ⟨⟨tyDirstruct, found.id, 8⟩, .data (.pair dir.pair)⟩,
      ⟨if cwd.split then ⟨fromNoop, 0, 0⟩ else tailTag false, .data (.pair dir.pair)⟩]

/-- The pair of a directory that an operation takes away: it has to be empty. -/
def fetchEmpty (cwd : Mdir) (id : ℕ) : FsM Mdir := do
  let (_, data) ← lfsDirGet cwd ⟨0x700, true⟩ ⟨tyStruct, id, 8⟩
  let dir ← lfsDirFetch data.toPair
  if 0 < dir.count ∨ dir.split then
    failWith .notEmpty
  return dir

/-- Take the directory `dir` off the tail list. -/
def dropDir (dir : Mdir) : FsM Unit := do
  lfsFsPreporphans (-1)
  let pred ← lfsFsPred dir.pair
  let _ ← lfsDirDrop pred dir

/-- `lfs_remove_`. -/
def lfsRemove (path : Bytes) : FsM Unit := do
  lfsFsForceconsistency
  let found ← lfsDirFind path
  let tag ← liftExcept (found.tag.elim (.error .noEntry) .ok)
  if tag.id = 0x3ff then
    failWith .invalid
  let delete : List Mattr := [⟨⟨tyDelete, tag.id, 0⟩, .data .empty⟩]
  let dir ←
    if tag.type3 = tyDir then do
      let dir ← fetchEmpty found.dir tag.id
      lfsFsPreporphans 1
      let (_, dir) ← withNode dir (lfsDirCommit none found.dir delete)
      pure dir
    else do
      let _ ← lfsDirCommit none found.dir delete
      pure {}
  let lfs ← get
  if lfs.gstate.hasorphans then
    dropDir dir

/-- `lfs_rename_`. -/
def lfsRename (oldpath newpath : Bytes) : FsM Unit := do
  lfsFsForceconsistency
  let old ← lfsDirFind oldpath
  let oldtag ← liftExcept (old.tag.elim (.error .noEntry) .ok)
  if oldtag.id = 0x3ff then
    failWith .invalid
  let new ← lfsDirFind newpath
  let samepair := !lfsPairCmp old.dir.pair new.dir.pair
  let lfs ← get
  let nlen := lfsPathNamelen new.path
  -- the id of the old entry behind the new one, and the directory to overwrite
  let (newoldid, prevdir) ←
    match new.tag with
    | none => do
        if !lfsPathIslast new.path then
          failWith .noEntry
        if lfsPathIsdir new.path ∧ oldtag.type3 ≠ tyDir then
          failWith .notDir
        if lfs.nameMax < nlen then
          failWith .nameTooLong
        pure (if samepair ∧ new.id ≤ oldtag.id then oldtag.id + 1 else oldtag.id,
          (none : Option Mdir))
    | some prevtag => do
        if prevtag.id = 0x3ff then
          failWith .invalid
        if prevtag.type3 ≠ oldtag.type3 then
          failWith (if prevtag.type3 = tyDir then .isDir else .notDir)
        if (samepair ∧ new.id = oldtag.id) ∨ prevtag.type3 ≠ tyDir then
          pure (oldtag.id, none)
        else do
          let dir ← fetchEmpty new.dir new.id
          lfsFsPreporphans 1
          pure (oldtag.id, some dir)
  if new.tag.isSome ∧ samepair ∧ new.id = oldtag.id then
    return ()
  if !samepair then
    lfsFsPrepmove newoldid old.dir.pair
  let commit := lfsDirCommit none new.dir
    [⟨if new.tag.isSome then ⟨tyDelete, new.id, 0⟩ else ⟨fromNoop, 0, 0⟩, .data .empty⟩,
      ⟨⟨tyCreate, new.id, 0⟩, .data .empty⟩,
      ⟨lfsMktag oldtag.type3 new.id nlen, .data (.bytes (new.path.take nlen))⟩,
      ⟨⟨fromMove, new.id, oldtag.id⟩, .mdir old.dir⟩,
      ⟨if samepair then ⟨tyDelete, newoldid, 0⟩ else ⟨fromNoop, 0, 0⟩, .data .empty⟩]
  let prevdir ←
    match prevdir with
    | some dir => do
        let (_, dir) ← withNode dir commit
        pure dir
    | none => do
        let _ ← commit
        pure {}
  let lfs ← get
  if !samepair ∧ lfs.gstate.hasmove then
    lfsFsPrepnomove
    let _ ← lfsDirCommit none old.dir [⟨⟨tyDelete, oldtag.id, 0⟩, .data .empty⟩]
  let lfs ← get
  if lfs.gstate.hasorphans then
    dropDir prevdir

/-! ## Custom attributes -/

/-- The pair and the index of an entry; the root answers with its own pair. -/
def attrTarget (path : Bytes) : FsM (Mdir × ℕ) := do
  let found ← lfsDirFind path
  let tag ← liftExcept (found.tag.elim (.error .noEntry) .ok)
  if tag.id = 0x3ff then
    let lfs ← get
    let cwd ← lfsDirFetch lfs.root
    return (cwd, 0)
  else
    return (found.dir, tag.id)

/-- `lfs_getattr_` with a buffer of `n` bytes. -/
def lfsGetattr (path : Bytes) (type n : ℕ) : FsM (Bytes × ℕ) := do
  let (cwd, id) ← attrTarget path
  match ← tryError (lfsDirGet cwd ⟨0x7ff, true⟩ ⟨tyUserattr + type, id, n⟩) with
  | .ok (tag, data) => return (slice data.toBytes 0 n, tag.size)
  | .error .noEntry => failWith .noAttribute
  | .error e => failWith e

/-- `lfs_commitattr`. -/
def lfsCommitattr (path : Bytes) (type : ℕ) (buffer : Bytes) (size : ℕ) : FsM Unit := do
  let (cwd, id) ← attrTarget path
  let _ ← lfsDirCommit none cwd
    [⟨lfsMktag (tyUserattr + type) id size, .data (.bytes buffer)⟩]

/-- `lfs_setattr_`. -/
def lfsSetattr (path : Bytes) (type : ℕ) (buffer : Bytes) : FsM Unit := do
  let lfs ← get
  if lfs.attrMax < buffer.length then
    failWith .noSpace
  lfsCommitattr path type buffer buffer.length

/-- `lfs_removeattr_`. -/
def lfsRemoveattr (path : Bytes) (type : ℕ) : FsM Unit := lfsCommitattr path type [] 0x3ff

/-! ## Resizing -/

def Payload.toSuperblock : Payload → Superblock
  | .superblock sb => sb
  | _ => ⟨0, 0, 0, 0, 0, 0⟩

/-- Rewrite the block count in the superblock entry of the root. -/
def growSuperblock : FsM Unit := do
  let lfs ← get
  let root ← lfsDirFetch lfs.root
  let (tag, data) ← lfsDirGet root ⟨0x7ff, true⟩ superblockTag
  let lfs ← get
  let _ ← lfsDirCommit none root
    [⟨tag, .data (.superblock { data.toSuperblock with blockCount := lfs.blockCount })⟩]

/-- `lfs_fs_grow_`. -/
def lfsFsGrow (blockCount : ℕ) : FsM Unit := do
  let lfs ← get
  if blockCount = lfs.blockCount then
    return ()
  if blockCount < lfs.blockCount then
    lfsFsTraverse (fun _ block => if blockCount ≤ block then failWith .notEmpty else pure ())
      true ()
  modify fun lfs => { lfs with blockCount := blockCount }
  growSuperblock

/-! ## Collecting garbage -/

/-- The pairs that `lfs_fs_gc_` rewrites. -/
def gcCompacts (cfg : Config) (dir : Mdir) : Bool :=
  !dir.erased ||
    if cfg.compactThresh = 0 then cfg.blockSize - cfg.blockSize / 8 < dir.off
    else cfg.compactThresh < dir.off

def gcTails : ℕ → Pair → FsM Unit
  | 0, _ => throw .outOfFuel
  | fuel + 1, tail =>
      if lfsPairIsnull tail then
        return ()
      else do
        let dir ← lfsDirFetch tail
        let lfs ← get
        let dir ←
          if gcCompacts lfs.cfg dir then lfsDirCommit none { dir with erased := false } []
          else pure dir
        gcTails fuel dir.tail

/-- `lfs_fs_gc_`. -/
def lfsFsGc : FsM Unit := do
  lfsFsForceconsistency
  let lfs ← get
  if lfs.cfg.compactThresh < lfs.cfg.blockSize - lfs.cfg.progSize then
    gcTails retryFuel (0, 1)
  let lfs ← get
  -- try to populate the lookahead window, unless it is already full
  if lfs.lookahead.size < min (Lookahead.lookaheadBits lfs.cfg.lookaheadSize) lfs.blockCount then
    lfsAllocScan

/-! ## Mounting -/

/-- The fields `lfs_init` sets. -/
def lfsInit (cfg : Config) (lfs : Lfs) : Lfs :=
  let attrMax := if cfg.attrMax ≠ 0 then cfg.attrMax else 1022
  { lfs with
    cfg := cfg
    blockCount := cfg.blockCount
    nameMax := if cfg.nameMax ≠ 0 then cfg.nameMax else 255
    fileMax := if cfg.fileMax ≠ 0 then cfg.fileMax else 2147483647
    attrMax := attrMax
    inlineMax :=
      if cfg.inlineMax = 2 ^ 32 - 1 then 0
      else if cfg.inlineMax = 0 then min (min cfg.cacheSize attrMax) (cfg.effectiveMax / 8)
      else cfg.inlineMax
    root := (blockNull, blockNull)
    mlist := []
    gstate := {}
    gdisk := {}
    gdelta := {} }

def magic : Bytes := [108, 105, 116, 116, 108, 101, 102, 115]

/-- `lfs_format_`. -/
def lfsFormat (cfg : Config) : FsM Unit := do
  modify (lfsInit cfg)
  modify fun lfs => { lfs with
    lookahead :=
      { start := 0
        size := min (Lookahead.lookaheadBits cfg.lookaheadSize) lfs.blockCount
        next := 0
        ckpoint := lfs.blockCount } }
  let root ← lfsDirAlloc
  let lfs ← get
  let superblock : Superblock :=
    { version := diskVersion, blockSize := cfg.blockSize, blockCount := lfs.blockCount,
      nameMax := lfs.nameMax, fileMax := lfs.fileMax, attrMax := lfs.attrMax }
  let root ← lfsDirCommit none root
    [⟨⟨tyCreate, 0, 0⟩, .data .empty⟩, ⟨⟨tySuperblock, 0, 8⟩, .data (.bytes magic)⟩,
      ⟨superblockTag, .data (.superblock superblock)⟩]
  -- force a compaction to clean out older blocks
  let _ ← lfsDirCommit none { root with erased := false } []
  let _ ← lfsDirFetch (0, 1)

/-- The callback of `lfs_mount_`: a superblock name at index zero. -/
def superblockMatch (attr : Attr) : Option Ordering :=
  if attr.1.type = tySuperblock ∧ attr.1.id = 0 then some (lfsDirFindMatch magic attr) else none

/-- A limit of the superblock, checked against the configured one. -/
def checkLimit (stored configured : ℕ) : FsM ℕ := do
  if stored = 0 then return configured
  if configured < stored then failWith .invalid
  return stored

/-- Take over one superblock entry. -/
def mountSuperblock (cfg : Config) (dir : Mdir) : FsM Unit := do
  modify fun lfs => { lfs with root := dir.pair }
  let (_, data) ← lfsDirGet dir ⟨0x7ff, true⟩ superblockTag
  let sb := data.toSuperblock
  if sb.version / 2 ^ 16 % 2 ^ 16 ≠ diskVersion / 2 ^ 16 ∨
      diskVersion % 2 ^ 16 < sb.version % 2 ^ 16 then
    failWith .invalid
  lfsFsPrepsuperblock (sb.version % 2 ^ 16 < diskVersion % 2 ^ 16)
  let lfs ← get
  let nameMax ← checkLimit sb.nameMax lfs.nameMax
  modify fun lfs => { lfs with nameMax := nameMax }
  let fileMax ← checkLimit sb.fileMax lfs.fileMax
  modify fun lfs => { lfs with fileMax := fileMax }
  let attrMax ← checkLimit sb.attrMax lfs.attrMax
  modify fun lfs => { lfs with
    attrMax := attrMax
    inlineMax := if sb.attrMax = 0 then lfs.inlineMax else min lfs.inlineMax attrMax }
  if cfg.blockCount ≠ 0 ∧ sb.blockCount ≠ cfg.blockCount then
    failWith .invalid
  modify fun lfs => { lfs with blockCount := sb.blockCount }
  if sb.blockSize ≠ cfg.blockSize then
    failWith .invalid

/-- The walk of `lfs_mount_` over the tail list. -/
def mountTails (cfg : Config) : ℕ → Pair → Tortoise → FsM Unit
  | 0, _, _ => throw .outOfFuel
  | fuel + 1, tail, tortoise =>
      if lfsPairIsnull tail then
        return ()
      else
        match lfsTortoiseDetectcycles tail tortoise with
        | none => failWith .corrupt
        | some tortoise => do
            let fetched ← lfsDirFetchmatch superblockMatch tail
            match fetched.result with
            | .found tag => if !tag.isdelete then mountSuperblock cfg fetched.dir
            | .noEntry => failWith .noEntry
            | .next => pure ()
            let lfs ← get
            let gstate ← lfsDirGetgstate fetched.dir lfs.gstate
            modify fun lfs => { lfs with gstate := gstate }
            mountTails cfg fuel fetched.dir.tail tortoise

/-- `lfs_mount_`.  `seed` is what fetching has stirred into `lfs.seed`. -/
def lfsMount (cfg : Config) (seed : ℕ) : FsM Unit := do
  modify (lfsInit cfg)
  mountTails cfg (walkFuel (2 ^ 32)) (0, 1) {}
  let lfs ← get
  let gstate :=
    if lfs.gstate.iszero then lfs.gstate
    else if lfs.gstate.sync then Gstate.ofWord ((lfs.gstate.word + 1) % 2 ^ 32) lfs.gstate.pair
    else lfs.gstate
  if lfs.blockCount = 0 then
    throw (.panic .divideByZero)
  modify fun lfs => { lfs with
    gstate := gstate
    gdisk := gstate
    lookahead := { lfs.lookahead with start := seed % lfs.blockCount } }
  lfsAllocDrop

end Littlefs
