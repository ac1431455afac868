import Littlefs.Tag
import Littlefs.Lib.Program

/-!
# The mounted filesystem and its device

A block holds a revision word and the commits that a scan of it accepts, oldest
first; `erased` says whether the bytes after the last commit are still the
erased state its forward CRC was taken over.  Blocks of file data have no
commits and carry their bytes in `data`.  The read and program caches are
transparent at this level and are left out.

The device answers `Corrupt` for the blocks marked in `eraseBad` and `progBad`,
and may fail any single access with `Io`: the script lists, access by access,
what happens to the accesses to come.
-/

namespace Littlefs

/-- One commit: its tags without the CRC tags, and the offset at which the next
commit starts. -/
structure Commit where
  tags : List Attr
  off : ℕ
  deriving DecidableEq, Repr

structure BlockImage where
  rev : ℕ := 0
  commits : List Commit := []
  erased : Bool := false
  data : Bytes := []
  deriving DecidableEq, Repr

/-- `lfs_mdir_t`, without `etag`: tags are stored whole, not as a chain. -/
structure Mdir where
  pair : Pair := (0, 0)
  rev : ℕ := 0
  off : ℕ := 0
  count : ℕ := 0
  erased : Bool := false
  split : Bool := false
  tail : Pair := (0, 0)
  deriving DecidableEq, Repr

/-- `LfsConfig`, without the buffers and the callbacks. -/
structure Config where
  readSize : ℕ
  progSize : ℕ
  blockSize : ℕ
  blockCount : ℕ
  blockCycles : ℤ
  cacheSize : ℕ
  lookaheadSize : ℕ
  compactThresh : ℕ
  nameMax : ℕ
  fileMax : ℕ
  attrMax : ℕ
  metadataMax : ℕ
  inlineMax : ℕ
  /-- The feature `alloc`. -/
  heap : Bool := true
  deriving DecidableEq, Repr

/-- `lfs_lookahead`: bit `i` of the buffer stands for the block
`(start + i) % block_count`. -/
structure Lookahead where
  start : ℕ := 0
  size : ℕ := 0
  next : ℕ := 0
  ckpoint : ℕ := 0
  buffer : ℕ → Bool := fun _ => false

inductive LfsType
  | none
  | reg
  | dir
  deriving DecidableEq, Repr

/-- `LfsAttr`: a custom attribute of a file configuration. -/
structure UserAttr where
  type : ℕ
  buffer : Bytes
  deriving DecidableEq, Repr

/-- `OpenFlags`. -/
structure OpenFlags where
  read : Bool := false
  write : Bool := false
  create : Bool := false
  excl : Bool := false
  trunc : Bool := false
  append : Bool := false
  dirty : Bool := false
  writing : Bool := false
  reading : Bool := false
  erred : Bool := false
  inline : Bool := false
  deriving DecidableEq, Repr

structure Ctz where
  head : Block := 0
  size : ℕ := 0
  deriving DecidableEq, Repr

/-- A node of `lfs.mlist`: an open file, an open directory or a bare
`LfsMlist`.  `key` stands for the address of the node, which the source
compares in `relocatingcommit_fixmlist`; `cache` is the buffer of an inline
file. -/
structure Handle where
  key : ℕ
  id : ℕ := 0
  type : LfsType := .none
  m : Mdir := {}
  pos : ℕ := 0
  head : Pair := (0, 0)
  ctz : Ctz := {}
  flags : OpenFlags := {}
  block : Block := 0
  off : ℕ := 0
  cache : Bytes := []
  attrs : List UserAttr := []
  deriving DecidableEq, Repr

/-- The fate of one device access: it succeeds, it fails, or it takes effect
and reports a failure all the same. -/
inductive Event
  | ok
  | failed
  | failedAfter
  deriving DecidableEq, Repr

/-- `lfs_t` with the device behind its configuration. -/
structure Lfs where
  disk : Block → BlockImage
  eraseBad : Block → Bool := fun _ => false
  progBad : Block → Bool := fun _ => false
  script : List Event := []
  cfg : Config
  root : Pair := (blockNull, blockNull)
  mlist : List Handle := []
  gstate : Gstate := {}
  gdisk : Gstate := {}
  gdelta : Gstate := {}
  lookahead : Lookahead := {}
  blockCount : ℕ
  nameMax : ℕ
  fileMax : ℕ
  attrMax : ℕ
  inlineMax : ℕ

/-- The panics of a release build; the `lfs_assert!`s are compiled out.  An `overflow`
panics in a build with overflow checks, and is modelled where a function is given
`checks`. -/
inductive Panic
  | unwrapNone
  | sliceRange
  | divideByZero
  | overflow
  deriving DecidableEq, Repr

/-- How a call ends when it does not end with `Ok`: with an error code, with a
panic, out of the fuel that bounds its loops, or because it was given the key
of a handle that is not open. -/
inductive Fault
  | error (e : Error)
  | panic (reason : Panic)
  | outOfFuel
  | badHandle
  deriving DecidableEq, Repr

abbrev FsM := EStateM Fault Lfs

def failWith {α : Type} (e : Error) : FsM α := throw (.error e)

def Fault.toError? : Fault → Option Error
  | .error e => some e
  | _ => none

/-- `let err = f(..)`: the error code of a call as a value. -/
def tryError {α : Type} (program : FsM α) : FsM (Except Error α) :=
  Program.attempt Fault.toError? program

/-! ## Device accesses -/

def nextEvent : FsM Event := do
  let lfs ← get
  match lfs.script with
  | [] => return .ok
  | event :: script =>
      set { lfs with script := script }
      return event

/-- `lfs_bd_read`: the block as it is on the device. -/
def readBlock (block : Block) : FsM BlockImage := do
  let lfs ← get
  if lfs.blockCount ≠ 0 ∧ lfs.blockCount ≤ block then
    failWith .corrupt
  match ← nextEvent with
  | .ok => return lfs.disk block
  | _ => failWith .io

def setBlock (block : Block) (image : BlockImage) : FsM Unit :=
  modify fun lfs => { lfs with disk := Function.update lfs.disk block image }

/-- `lfs_bd_erase`. -/
def lfsBdErase (block : Block) : FsM Unit := do
  let lfs ← get
  match ← nextEvent with
  | .ok =>
      if lfs.eraseBad block then failWith .corrupt
      setBlock block {}
  | .failed => failWith .io
  | .failedAfter =>
      setBlock block {}
      failWith .io

/-- Program `image` over `block`: what is on the block when the access fails is
`torn`, the part that a scan still accepts. -/
def devProg (block : Block) (torn image : BlockImage) : FsM Unit := do
  let lfs ← get
  match ← nextEvent with
  | .ok =>
      if lfs.progBad block then
        setBlock block torn
        failWith .corrupt
      setBlock block image
  | .failed =>
      setBlock block torn
      failWith .io
  | .failedAfter =>
      setBlock block image
      failWith .io

/-- `lfs_bd_sync`. -/
def lfsBdSync : FsM Unit := do
  match ← nextEvent with
  | .ok => return ()
  | _ => failWith .io

/-! ## Open handles -/

def findHandle (mlist : List Handle) (key : ℕ) : Option Handle :=
  mlist.find? fun handle => handle.key == key

def updateHandle (mlist : List Handle) (key : ℕ) (update : Handle → Handle) : List Handle :=
  mlist.map fun handle => if handle.key == key then update handle else handle

/-- Follow the address of a node. -/
def getHandle (key : ℕ) : FsM Handle := do
  match findHandle (← get).mlist key with
  | some handle => return handle
  | none => throw .badHandle

def modifyHandle (key : ℕ) (update : Handle → Handle) : FsM Unit :=
  modify fun lfs => { lfs with mlist := updateHandle lfs.mlist key update }

/-- `lfs_mlist_append`. -/
def lfsMlistAppend (handle : Handle) : FsM Unit :=
  modify fun lfs => { lfs with mlist := handle :: lfs.mlist }

/-- `lfs_mlist_remove`. -/
def lfsMlistRemove (key : ℕ) : FsM Unit :=
  modify fun lfs => { lfs with mlist := lfs.mlist.eraseP fun handle => handle.key == key }

end Littlefs
