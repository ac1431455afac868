import Littlefs.Ops

/-!
# Sessions

The public operations as one type, and the states that calls of them lead to.
A call that returns an error leaves the state it has made; a panic ends the
session.  Between two calls the device may change its mind about the accesses
to come.
-/

namespace Littlefs

inductive Op
  | format (cfg : Config)
  | mount (cfg : Config) (seed : ℕ)
  | mkdir (path : Bytes)
  | remove (path : Bytes)
  | rename (oldpath newpath : Bytes)
  | setattr (path : Bytes) (type : ℕ) (buffer : Bytes)
  | removeattr (path : Bytes) (type : ℕ)
  | fileOpen (file : Handle) (path : Bytes) (mode : OpenMode) (cfg : FileConfig)
  | fileWrite (key : ℕ) (data : Bytes)
  | fileSync (key : ℕ)
  | fileClose (key : ℕ)
  | mkconsistent
  | grow (blockCount : ℕ)
  | gc

def Op.run : Op → FsM Unit
  | format cfg => lfsFormat cfg
  | mount cfg seed => lfsMount cfg seed
  | mkdir path => lfsMkdir path
  | remove path => lfsRemove path
  | rename oldpath newpath => lfsRename oldpath newpath
  | setattr path type buffer => lfsSetattr path type buffer
  | removeattr path type => lfsRemoveattr path type
  | fileOpen file path mode cfg => lfsFileOpencfg file path mode cfg
  | fileWrite key data => lfsFileWrite key data
  | fileSync key => lfsFileSync key
  | fileClose key => lfsFileClose key
  | mkconsistent => lfsFsForceconsistency
  | grow blockCount => lfsFsGrow blockCount
  | gc => lfsFsGc

/-- How a call ends, as the caller sees it. -/
inductive Answer
  | ok
  | err (fault : Fault)
  deriving DecidableEq, Repr

def Op.answer (op : Op) (lfs : Lfs) : Answer :=
  match op.run lfs with
  | .ok _ _ => .ok
  | .error fault _ => .err fault

/-- The state a call leaves behind. -/
def Op.after (op : Op) (lfs : Lfs) : Lfs :=
  match op.run lfs with
  | .ok _ lfs' => lfs'
  | .error _ lfs' => lfs'

/-- A device that was never written. -/
def blankDevice (cfg : Config) : Lfs where
  disk := fun _ => {}
  cfg := cfg
  blockCount := 0
  nameMax := 0
  fileMax := 0
  attrMax := 0
  inlineMax := 0

def Answer.survives : Answer → Bool
  | ok => true
  | err (.error _) => true
  | err _ => false

/-- The states of a session. -/
inductive Reachable : Lfs → Prop
  | blank (cfg : Config) (eraseBad progBad : Block → Bool) :
      Reachable { blankDevice cfg with eraseBad := eraseBad, progBad := progBad }
  | call {lfs : Lfs} (op : Op) (hlfs : Reachable lfs)
      (hsurvives : (op.answer lfs).survives = true) : Reachable (op.after lfs)
  | device {lfs : Lfs} (script : List Event) (hlfs : Reachable lfs) :
      Reachable { lfs with script := script }

/-- The state after a list of calls, each of which must succeed. -/
def session : List Op → Lfs → Option Lfs
  | [], lfs => some lfs
  | op :: ops, lfs => if op.answer lfs = .ok then session ops (op.after lfs) else none

theorem Reachable.session {lfs lfs' : Lfs} {ops : List Op} (hlfs : Reachable lfs)
    (hsession : session ops lfs = some lfs') : Reachable lfs' := by
  induction ops generalizing lfs with
  | nil =>
      cases hsession
      exact hlfs
  | cons op ops ih =>
      rw [Littlefs.session] at hsession
      split_ifs at hsession with hok
      exact ih (.call op hlfs (by rw [hok]; rfl)) hsession

/-- A device of 64 blocks of 128 bytes. -/
def smallConfig : Config where
  readSize := 16
  progSize := 16
  blockSize := 128
  blockCount := 64
  blockCycles := -1
  cacheSize := 64
  lookaheadSize := 16
  compactThresh := 0
  nameMax := 0
  fileMax := 0
  attrMax := 0
  metadataMax := 0
  inlineMax := 16

/-- The state after formatting, mounting and a list of calls. -/
def mountedAfter (cfg : Config) (ops : List Op) : Lfs :=
  (session (.format cfg :: .mount cfg 0 :: ops) (blankDevice cfg)).getD (blankDevice cfg)

theorem reachable_mountedAfter (cfg : Config) (ops : List Op) :
    Reachable (mountedAfter cfg ops) := by
  have hblank : Reachable (blankDevice cfg) := .blank cfg (fun _ => false) fun _ => false
  unfold mountedAfter
  cases hsession : session (.format cfg :: .mount cfg 0 :: ops) (blankDevice cfg) with
  | none => exact hblank
  | some lfs => exact hblank.session hsession

/-- Open, write and close a file. -/
def writeFile (path data : Bytes) (attrs : List UserAttr) : List Op :=
  [.fileOpen { key := 1 } path { write := true, create := true } { attrs := attrs },
    .fileWrite 1 data, .fileClose 1]

end Littlefs
