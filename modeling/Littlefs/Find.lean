import Littlefs.Relocate

/-!
# Paths

`lfs_dir_find` walks a path from the root.  Names are separated by slashes; a
component that a later `..` cancels is skipped before it is looked up.
-/

namespace Littlefs

def slash : ℕ := 47

def dot : ℕ := 46

def lfsStrspn (p : Bytes) (c : ℕ) : ℕ := (p.takeWhile (· == c)).length

def lfsStrcspn (p : Bytes) (c : ℕ) : ℕ := (p.takeWhile (· != c)).length

def lfsPathNamelen (path : Bytes) : ℕ := lfsStrcspn path slash

def lfsPathIslast (path : Bytes) : Bool :=
  (path.drop (lfsPathNamelen path)).all (· == slash)

def lfsPathIsdir (path : Bytes) : Bool :=
  (path.drop (lfsPathNamelen path)).head?.any (· != 0)

/-- Byte-wise comparison of strings of one length. -/
def compareBytes : Bytes → Bytes → Ordering
  | a :: as, b :: bs => if a < b then .lt else if b < a then .gt else compareBytes as bs
  | _, _ => .eq

/-- `lfs_dir_find_match`: the data on disk is compared with the name as far as
both reach, then the length of the name with that of the data. -/
def lfsDirFindMatch (name : Bytes) (attr : Attr) : Ordering :=
  let diff := min name.length attr.1.size
  match compareBytes (attr.2.toBytes.take diff) (name.take diff) with
  | .eq => compare name.length attr.1.size
  | order => order

/-- The callback of `lfs_dir_find`, for the tags of files and directories. -/
def findMatch (name : Bytes) (attr : Attr) : Option Ordering :=
  if attr.1.type2 = tyName then some (lfsDirFindMatch name attr) else none

/-- What `lfs_dir_find` leaves in its arguments. -/
structure Found where
  dir : Mdir
  id : ℕ
  path : Bytes
  /-- `none` for `Err(NoEntry)`. -/
  tag : Option Tag
  deriving DecidableEq, Repr

/-- The rest of the path behind the `..` that cancels the current name; `depth` wraps. -/
def cancelled : ℕ → Bytes → BitVec 32 → Option Bytes
  | 0, _, _ => none
  | fuel + 1, suffix, depth =>
      let suffix := suffix.drop (lfsStrspn suffix slash)
      let sufflen := lfsStrcspn suffix slash
      let rest := suffix.drop sufflen
      if sufflen = 0 then none
      else if suffix.take sufflen = [dot] then cancelled fuel rest depth
      else if suffix.take sufflen = [dot, dot] then
        if depth - 1 = 0 then some rest else cancelled fuel rest (depth - 1)
      else cancelled fuel rest (depth + 1)

/-- Look a name up along the hard tails of a directory. -/
def findName (name : Bytes) : ℕ → Pair → FsM Fetched
  | 0, _ => throw .outOfFuel
  | fuel + 1, tail => do
      let fetched ← lfsDirFetchmatch (findMatch name) tail
      match fetched.result with
      | .next => if fetched.dir.split then findName name fuel fetched.dir.tail else return fetched
      | _ => return fetched

def rootTag : Tag := ⟨tyDir, 0x3ff, 0⟩

def lfsDirFindGo : ℕ → Found → Bytes → Tag → FsM Found
  | 0, _, _, _ => throw .outOfFuel
  | fuel + 1, found, name, tag => do
      let name := if tag.type3 = tyDir then name.drop (lfsStrspn name slash) else name
      let namelen := lfsStrcspn name slash
      if name.take namelen = [dot] then
        lfsDirFindGo fuel found (name.drop 1) tag
      else if name.take namelen = [dot, dot] then
        failWith .invalid
      else
        match cancelled (name.length + 1) (name.drop namelen) 1 with
        | some rest => lfsDirFindGo fuel found rest tag
        | none => do
            if name = [] then
              return { found with tag := some tag }
            let found := { found with path := name }
            if tag.type3 ≠ tyDir then
              failWith .notDir
            let tail ←
              if tag.id ≠ 0x3ff then do
                match ← tryError (lfsDirGet found.dir ⟨0x700, true⟩ ⟨tyStruct, tag.id, 8⟩) with
                | .ok (_, data) => pure (some data.toPair)
                | .error .noEntry => pure none
                | .error e => failWith e
              else pure (some found.dir.tail)
            match tail with
            | none => return { found with tag := none }
            | some tail =>
                let lfs ← get
                let fetched ← findName (name.take namelen) (tailFuel lfs) tail
                let found := { found with dir := fetched.dir, id := fetched.id }
                match fetched.result with
                | .found tag => lfsDirFindGo fuel found (name.drop namelen) tag
                | _ => return { found with tag := none }

/-- `lfs_dir_find`. -/
def lfsDirFind (path : Bytes) : FsM Found := do
  if path = [] ∨ path.head? = some 0 then
    failWith .invalid
  let lfs ← get
  lfsDirFindGo (2 * path.length + 2)
    { dir := { tail := lfs.root }, id := 0, path := path, tag := none } path rootTag

end Littlefs
