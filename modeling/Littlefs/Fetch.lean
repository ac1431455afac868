import Littlefs.Device

/-!
# Reading metadata pairs

`lfs_dir_fetchmatch` scans the commits of the newer block forwards and tracks
one candidate tag; `lfs_dir_getslice` searches the same log backwards.  The
pure parts work on a list of tags, the monadic ones add the device access.
-/

namespace Littlefs

/-- The tags up to `off`, which is what an `Mdir` fetched earlier still sees. -/
def BlockImage.log (image : BlockImage) (off : ℕ) : List Attr :=
  (image.commits.takeWhile fun commit => commit.off ≤ off).flatMap Commit.tags

def mdirLog (disk : Block → BlockImage) (dir : Mdir) : List Attr :=
  (disk dir.pair.1).log dir.off

/-! ## Fetch -/

/-- The variables of the scan that are published at a valid CRC tag.  `best` is
`tempbesttag`: `none` for `-1`, and the flag is the validity bit. -/
structure Scan where
  count : ℕ := 0
  tail : Pair := (blockNull, blockNull)
  split : Bool := false
  best : Option (Bool × Tag) := none
  deriving DecidableEq, Repr

/-- `lfs_tag_id(besttag)`, which is `0x3ff` for `-1`. -/
def bestId : Option (Bool × Tag) → ℕ
  | none => 0x3ff
  | some best => best.2.id

def Scan.splice (scan : Scan) (tag : Tag) : Scan :=
  { scan with
    count := ((scan.count : ℤ) + tag.splice).toNat
    best := scan.best.map fun best =>
      if tag = ⟨tyDelete, best.2.id, 0⟩ then (false, best.2)
      else if tag.id ≤ best.2.id then (best.1, best.2.shift tag.splice)
      else best }

def Scan.select (scan : Scan) (tag : Tag) (order : Ordering) : Scan :=
  if order = .eq then
    { scan with best := some (true, tag) }
  else if scan.best.any fun best => best.2.type == tag.type && best.2.id == tag.id then
    { scan with best := none }
  else if order = .gt ∧ tag.id ≤ bestId scan.best then
    { scan with best := some (false, tag) }
  else
    scan

/-- One iteration of the scan; `cb` answers for the tags that match
`fmask`/`ftag`. -/
def Scan.step (cb : Attr → Option Ordering) (scan : Scan) (attr : Attr) : Scan :=
  let tag := attr.1
  let scan :=
    if tag.type1 = tyName then
      if scan.count ≤ tag.id then { scan with count := tag.id + 1 } else scan
    else if tag.type1 = tySplice then
      scan.splice tag
    else if tag.type1 = tyTail then
      { scan with split := tag.chunk &&& 1 != 0, tail := attr.2.toPair }
    else
      scan
  match cb attr with
  | none => scan
  | some order => scan.select tag order

def scanLog (cb : Attr → Option Ordering) (log : List Attr) : Scan :=
  log.foldl (Scan.step cb) {}

/-- How a fetch with a match ends: a tag, `Err(NoEntry)`, or `Ok(0)`, which
sends the caller to the next pair of the directory. -/
inductive Match
  | found (tag : Tag)
  | noEntry
  | next
  deriving DecidableEq, Repr

structure Fetched where
  dir : Mdir
  id : ℕ
  result : Match
  deriving DecidableEq, Repr

/-- The pair with its current block in front: the newer revision if it has a
valid commit, otherwise the other block. -/
def locate (disk : Block → BlockImage) (pair : Pair) : Option Pair :=
  let pair := if (disk pair.1).rev < (disk pair.2).rev then pair.swap else pair
  if (disk pair.1).commits ≠ [] then some pair
  else if (disk pair.2).commits ≠ [] then some pair.swap
  else none

/-- The `Mdir` of a pair whose current block is in front. -/
def mdirOf (disk : Block → BlockImage) (pair : Pair) : Mdir :=
  let image := disk pair.1
  let off := (image.commits.getLast?.map Commit.off).getD 0
  let scan := scanLog (fun _ => none) (image.commits.flatMap Commit.tags)
  { pair := pair, rev := image.rev, off := off, count := scan.count,
    erased := image.erased, split := scan.split, tail := scan.tail }

/-- The virtual removal of the source of a pending move. -/
def syntheticMove (gdisk : Gstate) (pair : Pair) (best : Option (Bool × Tag)) :
    Option (Bool × Tag) :=
  if gdisk.hasmovehere pair then
    best.map fun best =>
      if gdisk.id = best.2.id then (false, best.2)
      else if gdisk.id < best.2.id then (best.1, best.2.shift (-1))
      else best
  else
    best

def matchResult (best : Option (Bool × Tag)) (count : ℕ) : Match :=
  match best with
  | some (true, tag) => .found tag
  | _ => if bestId best < count then .noEntry else .next

def outOfRange (blockCount : ℕ) (pair : Pair) : Bool :=
  blockCount != 0 && (blockCount ≤ pair.1 || blockCount ≤ pair.2)

def fetchmatch (disk : Block → BlockImage) (blockCount : ℕ) (gdisk : Gstate)
    (cb : Attr → Option Ordering) (pair : Pair) : Except Error Fetched :=
  if outOfRange blockCount pair then
    .error .corrupt
  else
    match locate disk pair with
    | none => .error .corrupt
    | some pair =>
        let dir := mdirOf disk pair
        let scan := scanLog cb ((disk pair.1).commits.flatMap Commit.tags)
        let best := syntheticMove gdisk pair scan.best
        .ok { dir := dir, id := min (bestId best) dir.count,
              result := matchResult best dir.count }

def liftExcept {α : Type} : Except Error α → FsM α
  | .ok value => return value
  | .error e => failWith e

/-- `lfs_dir_fetchmatch`. -/
def lfsDirFetchmatch (cb : Attr → Option Ordering) (pair : Pair) : FsM Fetched := do
  let lfs ← get
  if outOfRange lfs.blockCount pair then
    failWith .corrupt
  let _ ← readBlock pair.1
  liftExcept (fetchmatch lfs.disk lfs.blockCount lfs.gdisk cb pair)

/-- `lfs_dir_fetch`. -/
def lfsDirFetch (pair : Pair) : FsM Mdir := do
  let fetched ← lfsDirFetchmatch (fun _ => none) pair
  return fetched.dir

/-! ## Lookup -/

/-- A lookup mask: the type bits that must agree, and whether ids count. -/
structure Mask where
  type : ℕ
  byId : Bool := true
  deriving DecidableEq, Repr

/-- The backward search over the tags, newest first.  `gdiff` is the id shift
by the splices passed so far. -/
def getsliceGo (gmask : Mask) (gtag : Tag) : List Attr → ℤ → Option Attr
  | [], _ => none
  | (tag, data) :: older, gdiff =>
      let passed := gmask.byId && tag.type1 == tySplice && (tag.id : ℤ) ≤ gtag.id - gdiff
      if passed && tag.type == tyCreate && (tag.id : ℤ) == gtag.id - gdiff && tag.size == 0 then
        -- found where we were created
        none
      else
        let gdiff := if passed then gdiff + tag.splice else gdiff
        if tag.type &&& gmask.type = gtag.type &&& gmask.type ∧
            (gmask.byId → (tag.id : ℤ) = gtag.id - gdiff) then
          if tag.isdelete then none else some (tag.shift gdiff, data)
        else
          getsliceGo gmask gtag older gdiff

/-- `lfs_dir_getslice` on the tags an `Mdir` sees; `none` is `Err(NoEntry)`. -/
def getslice (gdisk : Gstate) (dir : Mdir) (log : List Attr) (gmask : Mask) (gtag : Tag) :
    Option Attr :=
  if gdisk.hasmovehere dir.pair ∧ gmask.byId then
    if gdisk.id = gtag.id then none
    else getsliceGo gmask gtag log.reverse (if gdisk.id < gtag.id then -1 else 0)
  else
    getsliceGo gmask gtag log.reverse 0

/-- The tags an `Mdir` sees; a block that holds only its revision is not read. -/
def readLog (dir : Mdir) : FsM (List Attr) := do
  if dir.off ≤ 4 then
    return []
  let image ← readBlock dir.pair.1
  return image.log dir.off

/-- `lfs_dir_get`: the tag with its current id, and the data it carries. -/
def lfsDirGet (dir : Mdir) (gmask : Mask) (gtag : Tag) : FsM Attr := do
  let log ← readLog dir
  let lfs ← get
  match getslice lfs.gdisk dir log gmask gtag with
  | some attr => return attr
  | none => failWith .noEntry

/-- The MOVESTATE delta in a log, zero when there is none. -/
def logGstate (log : List Attr) : Gstate :=
  match getsliceGo ⟨0x7ff, false⟩ ⟨tyMovestate, 0, 12⟩ log.reverse 0 with
  | some (_, .gstate delta) => delta
  | _ => {}

/-- `lfs_dir_getgstate`: the delta stored in `dir`, xor-ed into `gstate`. -/
def lfsDirGetgstate (dir : Mdir) (gstate : Gstate) : FsM Gstate := do
  let log ← readLog dir
  return gstate.xor (logGstate log)

end Littlefs
