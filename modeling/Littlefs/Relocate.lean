import Littlefs.Commit
import Littlefs.File

/-!
# Committing, with everything a moved pair drags along

`lfs_dir_relocatingcommit` writes one pair and brings the open handles up to
date.  When that pair has moved, `lfs_dir_orphaningcommit` rewrites its parent
and its predecessor, which may move in turn.  A directory pair that loses its
last entry is dropped: its predecessor takes over its tail.
-/

namespace Littlefs

/-! ## Predecessor and parent -/

/-- The loop of `lfs_fs_pred`.  `pdir` is `none` until a pair was fetched. -/
def lfsFsPredGo (pair : Pair) : ℕ → Pair → Option Mdir → Tortoise → FsM Mdir
  | 0, _, _, _ => throw .outOfFuel
  | fuel + 1, tail, pdir, tortoise =>
      if lfsPairIsnull tail then
        failWith .noEntry
      else
        match lfsTortoiseDetectcycles tail tortoise with
        | none => failWith .corrupt
        | some tortoise => do
            if !lfsPairCmp tail pair then
              match pdir with
              | some pdir => return pdir
              | none =>
                  -- the root has no predecessor, but it answers for itself
                  -- when there is a pair behind it
                  let pdir ← lfsDirFetch tail
                  if lfsPairIsnull pdir.tail then failWith .noEntry
                  return pdir
            else
              let pdir ← lfsDirFetch tail
              lfsFsPredGo pair fuel pdir.tail (some pdir) tortoise

/-- `lfs_fs_pred`. -/
def lfsFsPred (pair : Pair) : FsM Mdir := do
  let lfs ← get
  lfsFsPredGo pair (tailFuel lfs) (0, 1) none {}

/-- `lfs_fs_parent_match`, for the directory structs of eight bytes. -/
def lfsFsParentMatch (pair : Pair) (attr : Attr) : Option Ordering :=
  if attr.1.type = tyDirstruct ∧ attr.1.size = 8 then
    some (if lfsPairCmp attr.2.toPair pair then .lt else .eq)
  else
    none

def lfsFsParentGo (pair : Pair) : ℕ → Pair → Tortoise → FsM (Mdir × Tag)
  | 0, _, _ => throw .outOfFuel
  | fuel + 1, tail, tortoise =>
      if lfsPairIsnull tail then
        failWith .noEntry
      else
        match lfsTortoiseDetectcycles tail tortoise with
        | none => failWith .corrupt
        | some tortoise => do
            let fetched ← lfsDirFetchmatch (lfsFsParentMatch pair) tail
            match fetched.result with
            | .found tag => return (fetched.dir, tag)
            | _ => lfsFsParentGo pair fuel fetched.dir.tail tortoise

/-- `lfs_fs_parent`. -/
def lfsFsParent (pair : Pair) : FsM (Mdir × Tag) := do
  let lfs ← get
  lfsFsParentGo pair (tailFuel lfs) (0, 1) {}

/-! ## Pending work in the global state -/

/-- The tag word of a global state, and back. -/
def Gstate.word (a : Gstate) : ℕ :=
  (if a.sync then 2 ^ 31 else 0) + a.type * 2 ^ 20 + a.id * 2 ^ 10 + a.size

def Gstate.ofWord (word : ℕ) (pair : Pair) : Gstate where
  sync := word / 2 ^ 31 % 2 == 1
  type := word / 2 ^ 20 % 2 ^ 11
  id := word / 2 ^ 10 % 2 ^ 10
  size := word % 2 ^ 10
  pair := pair

def Gstate.addOrphans (a : Gstate) (orphans : ℤ) : Gstate :=
  let size := (a.size : ℤ) + orphans
  let a :=
    if 0 ≤ size ∧ size < 2 ^ 10 then { a with size := size.toNat }
    else Gstate.ofWord (((a.word : ℤ) + orphans) % 2 ^ 32).toNat a.pair
  { a with sync := a.hasorphans }

/-- `lfs_fs_preporphans`. -/
def lfsFsPreporphans (orphans : ℤ) : FsM Unit :=
  modify fun lfs => { lfs with gstate := lfs.gstate.addOrphans orphans }

def Gstate.setMove (a : Gstate) (id : ℕ) (pair : Pair) : Gstate :=
  { a with type := tyDelete, id := id, pair := pair }

def Gstate.clearMove (a : Gstate) : Gstate :=
  { a with type := 0, id := 0, pair := (0, 0) }

/-- `lfs_fs_prepmove` with an id. -/
def lfsFsPrepmove (id : ℕ) (pair : Pair) : FsM Unit :=
  modify fun lfs => { lfs with gstate := lfs.gstate.setMove id pair }

/-- `lfs_fs_prepmove(lfs, 0x3ff, None)`. -/
def lfsFsPrepnomove : FsM Unit :=
  modify fun lfs => { lfs with gstate := lfs.gstate.clearMove }

/-- Take over a pending move out of `pair`: its id, if there is one. -/
def takeMovehere (pair : Pair) : FsM (Option ℕ) := do
  let lfs ← get
  if lfs.gstate.hasmovehere pair then
    lfsFsPrepnomove
    return some lfs.gstate.id
  else
    return none

/-- `lfs_mktag_if(moveid != 0x3ff, LFS_TYPE_DELETE, moveid, 0)`. -/
def moveTag (moveid : Option ℕ) : Tag :=
  match moveid with
  | some id => ⟨tyDelete, id, 0⟩
  | none => ⟨fromNoop, 0, 0⟩

/-! ## One commit -/

/-- How a commit with `attrs` changes the count and the tail of `dir`. -/
def applyMattr (dir : Mdir) (mattr : Mattr) : Mdir :=
  if mattr.tag.type3 = tyCreate then
    { dir with count := dir.count + 1 }
  else if mattr.tag.type3 = tyDelete then
    { dir with count := dir.count - 1 }
  else if mattr.tag.type1 = tyTail then
    match mattr.buffer with
    | .data payload =>
        { dir with tail := payload.toPair, split := mattr.tag.chunk &&& 1 != 0 }
    | _ => dir
  else
    dir

def hasDelete (attrs : List Mattr) : Bool := attrs.any fun mattr => mattr.tag.type3 == tyDelete

/-- What one attribute does to a handle of the committed pair. -/
def fixHandle (handle : Handle) (mattr : Mattr) : Handle :=
  if mattr.tag.type3 = tyDelete ∧ handle.id = mattr.tag.id ∧ handle.type ≠ .dir then
    { handle with m := { handle.m with pair := (blockNull, blockNull) } }
  else if mattr.tag.type3 = tyDelete ∧ mattr.tag.id < handle.id then
    { handle with id := handle.id - 1 }
  else if mattr.tag.type3 = tyCreate ∧ mattr.tag.id ≤ handle.id then
    { handle with id := handle.id + 1 }
  else
    handle

/-- Follow the tails while the index lies past the pair.  Only the index of a
handle that leaves a pair for one other than the root counts down. -/
def chaseTails (key : ℕ) : ℕ → FsM Unit
  | 0 => throw .outOfFuel
  | fuel + 1 => do
      let lfs ← get
      let handle ← getHandle key
      if handle.m.count ≤ handle.id ∧ handle.m.split then
        if lfsPairCmp handle.m.tail lfs.root then
          modifyHandle key fun handle => { handle with id := handle.id - handle.m.count }
        let m ← lfsDirFetch handle.m.tail
        modifyHandle key fun handle => { handle with m := m }
        chaseTails key fuel
      else
        return ()

/-- `relocatingcommit_fixmlist`.  `self` is the handle whose own `m` is the
directory being committed: its index is left alone. -/
def relocatingcommitFixmlist (dir : Mdir) (pair : Pair) (self : Option ℕ) (attrs : List Mattr) :
    FsM Unit := do
  let lfs ← get
  lfs.mlist.forM fun handle => do
    if !lfsPairCmp handle.m.pair pair then
      modifyHandle handle.key fun handle =>
        let handle := { handle with m := dir }
        if some handle.key = self then handle else attrs.foldl fixHandle handle
      chaseTails handle.key (tailFuel lfs)

structure Relocating where
  dir : Mdir
  pdir : Option Mdir
  state : CommitState
  deriving DecidableEq, Repr

/-- `lfs_dir_relocatingcommit`.  `pdir` is the slot for the predecessor of a
pair that loses its last entry. -/
def lfsDirRelocatingcommit (dir : Mdir) (pair : Pair) (self : Option ℕ) (attrs : List Mattr)
    (pdir : Option Mdir) : FsM Relocating := do
  let dir := attrs.foldl applyMattr dir
  let mut pdir := pdir
  if hasDelete attrs ∧ dir.count = 0 then
    if pdir.isNone then
      throw (.panic .unwrapNone)
    match ← tryError (lfsFsPred dir.pair) with
    | .error .noEntry => pure ()
    | .error e => failWith e
    | .ok pred =>
        pdir := some pred
        if pred.split then
          relocatingcommitFixmlist dir pair self attrs
          return { dir := dir, pdir := pdir, state := .dropped }
  let appended ←
    if dir.erased ∧ dir.count < 0xff then appendCommit dir attrs else pure none
  match appended with
  | some dir =>
      relocatingcommitFixmlist dir pair self attrs
      return { dir := dir, pdir := pdir, state := .ok }
  | none =>
      let (dir, state) ← lfsDirSplittingcompact dir attrs 0 dir.count
      relocatingcommitFixmlist dir pair self attrs
      return { dir := dir, pdir := pdir, state := state }

/-! ## Commits that move pairs -/

/-- Files whose inline data outgrew the cache are moved to blocks of their own
before their directory is rewritten. -/
def evictInline (self : Option ℕ) (pair : Pair) : FsM Unit := do
  let lfs ← get
  lfs.mlist.forM fun node => do
    let file ← getHandle node.key
    if some file.key ≠ self ∧ !lfsPairCmp file.m.pair pair ∧ file.type = .reg ∧
        file.flags.inline ∧ lfs.cfg.cacheSize < file.ctz.size then
      lfsFileOutline file.key
      lfsFileFlush file.key

/-- Handles and the root follow a pair from `lpair` to `pair`. -/
def movePair (lpair pair : Pair) (lfs : Lfs) : Lfs :=
  { lfs with
    root := if lfsPairCmp lpair lfs.root then lfs.root else pair
    mlist := lfs.mlist.map fun handle =>
      let handle :=
        if lfsPairCmp lpair handle.m.pair then handle
        else { handle with m := { handle.m with pair := pair } }
      if handle.type = .dir ∧ !lfsPairCmp lpair handle.head then { handle with head := pair }
      else handle }

/-- The relocation loop of `lfs_dir_orphaningcommit`: the pair `lpair` is now
`ldir.pair`.  The result says whether a half-orphan was left behind. -/
def relocationLoop : ℕ → Pair → Mdir → Bool → FsM Bool
  | 0, _, _, _ => throw .outOfFuel
  | fuel + 1, lpair, ldir, orphans => do
      modify (movePair lpair ldir.pair)
      let parent ← tryError (lfsFsParent lpair)
      let commitParent ←
        match parent with
        | .error .noEntry => pure none
        | .error e => failWith e
        | .ok (pdir, tag) => do
            lfsFsPreporphans 1
            let moveid ← takeMovehere pdir.pair
            let tag := if moveid.any fun id => id < tag.id then tag.shift (-1) else tag
            let committed ← lfsDirRelocatingcommit pdir pdir.pair none
              [⟨moveTag moveid, .data .empty⟩, ⟨tag, .data (.pair ldir.pair)⟩] none
            pure (some (pdir.pair, committed))
      match commitParent with
      | some (ppair, ⟨dir, _, .relocated⟩) => relocationLoop fuel ppair dir true
      | _ =>
          match ← tryError (lfsFsPred lpair) with
          | .error .noEntry => return orphans
          | .error e => failWith e
          | .ok pdir =>
              let lfs ← get
              if lfs.gstate.hasorphans then
                lfsFsPreporphans (if commitParent.isSome then -1 else 0)
              let moveid ← takeMovehere pdir.pair
              let committed ← lfsDirRelocatingcommit pdir pdir.pair none
                [⟨moveTag moveid, .data .empty⟩,
                  ⟨tailTag pdir.split, .data (.pair ldir.pair)⟩] none
              if committed.state = .relocated then
                relocationLoop fuel pdir.pair committed.dir orphans
              else
                return orphans

/-- The directory a commit was called with: a handle's own `m`, or a local. -/
def currentDir (self : Option ℕ) (dir : Mdir) : FsM Mdir :=
  match self with
  | none => return dir
  | some key => do return (← getHandle key).m

/-- `lfs_dir_orphaningcommit`. -/
def lfsDirOrphaningcommit (self : Option ℕ) (dir : Mdir) (attrs : List Mattr) :
    FsM (Mdir × CommitState) := do
  evictInline self dir.pair
  let lpair := dir.pair
  let committed ← lfsDirRelocatingcommit dir dir.pair self attrs (some {})
  let ldir := committed.dir
  let dir ← currentDir self dir
  let dir := if lfsPairCmp dir.pair lpair then dir else ldir
  if let some key := self then
    modifyHandle key fun handle => { handle with m := dir }
  let (ldir, state) ←
    match committed.state, committed.pdir with
    | .dropped, some pdir => do
        let lfs ← get
        let gdelta ← lfsDirGetgstate dir lfs.gdelta
        modify fun lfs => { lfs with gdelta := gdelta }
        -- the pair left behind is `pdir.pair`, but `lpair` keeps naming the dropped one
        let committed ← lfsDirRelocatingcommit pdir pdir.pair none
          [⟨tailTag dir.split, .data (.pair dir.tail)⟩] none
        pure (committed.dir, committed.state)
    | state, _ => pure (ldir, state)
  let orphans ←
    if state = .relocated then relocationLoop retryFuel lpair ldir false else pure false
  let dir ← currentDir self dir
  return (dir, if orphans then .orphaned else .ok)

/-! ## Repair -/

/-- `-(orphans as i8)` of a count in eight bits. -/
def negateI8 (orphans : ℕ) : ℤ :=
  if orphans < 128 then -(orphans : ℤ) else if orphans = 128 then -128 else 256 - (orphans : ℤ)

/-- One walk of `lfs_fs_deorphan` over the tail list; the result says whether
a repair left a half-orphan behind. -/
def deorphanPass (pass : ℕ) (powerloss : Bool) : ℕ → Mdir → Bool → FsM Bool
  | 0, _, _ => throw .outOfFuel
  | fuel + 1, pdir, moreorphans =>
      if lfsPairIsnull pdir.tail then
        return moreorphans
      else do
        let dir ← lfsDirFetch pdir.tail
        if pdir.split then
          deorphanPass pass powerloss fuel dir moreorphans
        else
          match ← tryError (lfsFsParent pdir.tail) with
          | .ok (parent, tag) =>
              if pass = 0 then
                let (_, data) ← lfsDirGet parent ⟨0x7ff, true⟩ tag
                let pair := data.toPair
                if lfsPairIssync pair pdir.tail then
                  deorphanPass pass powerloss fuel dir moreorphans
                else
                  -- a half-orphan: the list still has the pair before its relocation
                  let moveid ← takeMovehere pdir.pair
                  let (pdir, state) ← lfsDirOrphaningcommit none pdir
                    [⟨moveTag moveid, .data .empty⟩, ⟨tailTag false, .data (.pair pair)⟩]
                  deorphanPass pass powerloss fuel pdir (moreorphans || state == .orphaned)
              else
                deorphanPass pass powerloss fuel dir moreorphans
          | .error .noEntry =>
              if pass = 1 ∧ powerloss then
                -- a full orphan
                let lfs ← get
                let gdelta ← lfsDirGetgstate dir lfs.gdelta
                modify fun lfs => { lfs with gdelta := gdelta }
                let (pdir, state) ← lfsDirOrphaningcommit none pdir
                  [⟨tailTag dir.split, .data (.pair dir.tail)⟩]
                deorphanPass pass powerloss fuel pdir (moreorphans || state == .orphaned)
              else
                deorphanPass pass powerloss fuel dir moreorphans
          | .error e => failWith e

def deorphanGo (powerloss : Bool) : ℕ → ℕ → FsM Unit
  | 0, _ => throw .outOfFuel
  | fuel + 1, pass =>
      if pass < 2 then do
        let moreorphans ← deorphanPass pass powerloss retryFuel
            { split := true, tail := (0, 1) } false
        deorphanGo powerloss fuel (if moreorphans then 0 else pass + 1)
      else
        return ()

/-- `lfs_fs_deorphan`. -/
def lfsFsDeorphan (powerloss : Bool) : FsM Unit := do
  let lfs ← get
  if lfs.gstate.hasorphans then
    deorphanGo powerloss retryFuel 0
    let lfs ← get
    lfsFsPreporphans (negateI8 lfs.gstate.getorphans)

/-- `lfs_dir_commit`; the result is the directory as the caller sees it. -/
def lfsDirCommit (self : Option ℕ) (dir : Mdir) (attrs : List Mattr) : FsM Mdir := do
  let (dir, state) ← lfsDirOrphaningcommit self dir attrs
  if state = .orphaned then
    lfsFsDeorphan false
  currentDir self dir

/-- `lfs_dir_drop`. -/
def lfsDirDrop (dir tail : Mdir) : FsM Mdir := do
  let lfs ← get
  let gdelta ← lfsDirGetgstate tail lfs.gdelta
  modify fun lfs => { lfs with gdelta := gdelta }
  lfsDirCommit none dir [⟨tailTag tail.split, .data (.pair tail.tail)⟩]

def superblockTag : Tag := ⟨tyInlinestruct, 0, 24⟩

def diskVersion : ℕ := 0x00020001

/-- `lfs_fs_prepsuperblock`. -/
def lfsFsPrepsuperblock (needssuperblock : Bool) : FsM Unit :=
  modify fun lfs => { lfs with
    gstate := { lfs.gstate with
      size := (lfs.gstate.size &&& 0x1ff) ||| if needssuperblock then 0x200 else 0 } }

/-- `lfs_fs_desuperblock`. -/
def lfsFsDesuperblock : FsM Unit := do
  let lfs ← get
  if lfs.gstate.needssuperblock then
    let root ← lfsDirFetch lfs.root
    let superblock : Superblock :=
      { version := diskVersion, blockSize := lfs.cfg.blockSize, blockCount := lfs.blockCount,
        nameMax := lfs.nameMax, fileMax := lfs.fileMax, attrMax := lfs.attrMax }
    let _ ← lfsDirCommit none root [⟨superblockTag, .data (.superblock superblock)⟩]
    lfsFsPrepsuperblock false

/-- `lfs_fs_demove`. -/
def lfsFsDemove : FsM Unit := do
  let lfs ← get
  if lfs.gdisk.hasmove then
    let movedir ← lfsDirFetch lfs.gdisk.pair
    lfsFsPrepnomove
    let _ ← lfsDirCommit none movedir [⟨⟨tyDelete, lfs.gdisk.id, 0⟩, .data .empty⟩]

/-- `lfs_fs_forceconsistency`. -/
def lfsFsForceconsistency : FsM Unit := do
  lfsFsDesuperblock
  lfsFsDemove
  lfsFsDeorphan true

end Littlefs
