import Littlefs.Find
import Littlefs.FileOps

/-!
# Open directories

A directory handle stands in front of an entry of its pair, `id`, and counts what it has
read, `pos`, the entries `.` and `..` included.
-/

namespace Littlefs

/-- `LfsType::try_from_primitive`. -/
def LfsType.tryFromPrimitive : ℕ → Option LfsType
  | 0 => some .none
  | 1 => some .reg
  | 2 => some .dir
  | _ => Option.none

/-- `LfsInfo`, without the zeros behind the name. -/
structure LfsInfo where
  type : LfsType := .none
  size : ℕ := 0
  name : Bytes := []
  deriving DecidableEq, Repr

/-- The size that a struct tag tells of. -/
def structSize (tag : Tag) (data : Payload) : ℕ :=
  if tag.type3 = tyCtzstruct then data.toCtz.size
  else if tag.type3 = tyInlinestruct then tag.size
  else 0

/-- `lfs_dir_getinfo`. -/
def lfsDirGetinfo (dir : Mdir) (id : ℕ) : FsM LfsInfo :=
  if id = 0x3ff then
    return { type := .dir, name := [slash] }
  else do
    let lfs ← get
    let name ← lfsDirGet dir ⟨0x780, true⟩ (lfsMktag tyName id (lfs.nameMax + 1))
    match LfsType.tryFromPrimitive (name.1.type3 % 256) with
    | none => throw (.panic .unwrapNone)
    | some type =>
        let struct ← lfsDirGet dir ⟨0x700, true⟩ ⟨tyStruct, id, 8⟩
        return { type := type, size := structSize struct.1 struct.2,
                 name := name.2.toBytes.take (lfs.nameMax + 1) }

/-- `lfs_dir_open_`; `key` stands for the address of the caller's `LfsDir`. -/
def lfsDirOpen (key : ℕ) (path : Bytes) : FsM Unit := do
  let found ← lfsDirFind path
  match found.tag with
  | none => failWith .noEntry
  | some tag => do
      if tag.type3 ≠ tyDir then
        failWith .notDir
      let lfs ← get
      let pair ←
        if tag.id = 0x3ff then pure lfs.root
        else do
          let struct ← lfsDirGet found.dir ⟨0x700, true⟩ ⟨tyStruct, tag.id, 8⟩
          pure struct.2.toPair
      let m ← lfsDirFetch pair
      lfsMlistAppend { key := key, type := .dir, m := m, head := m.pair }

/-- `lfs_dir_close_`. -/
def lfsDirClose (key : ℕ) : FsM Unit := lfsMlistRemove key

/-- The handle goes over to the next pair of its directory, if there is one. -/
def nextPair (key : ℕ) : FsM Bool := do
  let dir ← getHandle key
  if ¬dir.m.split then
    return false
  let m ← lfsDirFetch dir.m.tail
  modifyHandle key fun dir => { dir with m := m, id := 0 }
  return true

/-- The loop of `lfs_dir_read_`; `none` is `Ok(false)`. -/
def lfsDirReadGo (key : ℕ) : ℕ → FsM (Option LfsInfo)
  | 0 => throw .outOfFuel
  | fuel + 1 => do
      let dir ← getHandle key
      let more ← if dir.id = dir.m.count then nextPair key else pure true
      if !more then
        return none
      let dir ← getHandle key
      match ← tryError (lfsDirGetinfo dir.m dir.id) with
      | .ok info =>
          modifyHandle key fun dir => { dir with id := dir.id + 1 }
          return some info
      | .error .noEntry =>
          modifyHandle key fun dir => { dir with id := dir.id + 1 }
          lfsDirReadGo key fuel
      | .error e => failWith e

/-- Count one more entry. -/
def countRead (key : ℕ) : FsM Unit := modifyHandle key fun dir => { dir with pos := dir.pos + 1 }

/-- The entry in front of all others, and the one behind it. -/
def dotInfo (name : Bytes) : LfsInfo := { type := .dir, name := name }

/-- `lfs_dir_read_`; `none` is `Ok(false)`. -/
def lfsDirRead (key : ℕ) : FsM (Option LfsInfo) := do
  let lfs ← get
  let dir ← getHandle key
  if dir.pos = 0 then
    countRead key
    return some (dotInfo [dot])
  if dir.pos = 1 then
    countRead key
    return some (dotInfo [dot, dot])
  match ← lfsDirReadGo key (tailFuel lfs * 0x10000) with
  | none => return none
  | some info => do
      countRead key
      return some info

/-- `lfs_dir_rewind_`. -/
def lfsDirRewind (key : ℕ) : FsM Unit := do
  let dir ← getHandle key
  let m ← lfsDirFetch dir.head
  modifyHandle key fun dir => { dir with m := m, id := 0, pos := 0 }

/-- The loop of `lfs_dir_seek_`. -/
def lfsDirSeekGo (key : ℕ) : ℕ → ℕ → FsM Unit
  | 0, _ => throw .outOfFuel
  | fuel + 1, off =>
      if off = 0 then
        return ()
      else do
        let dir ← getHandle key
        let more ← if dir.id = dir.m.count then nextPair key else pure true
        if !more then
          failWith .invalid
        let dir ← getHandle key
        let diff := min (dir.m.count - dir.id) off
        modifyHandle key fun dir => { dir with id := dir.id + diff, pos := dir.pos + diff }
        lfsDirSeekGo key fuel (off - diff)

/-- `lfs_dir_seek_`. -/
def lfsDirSeek (key off : ℕ) : FsM Unit := do
  lfsDirRewind key
  let lfs ← get
  let rest := off - min 2 off
  -- the superblock is no entry
  modifyHandle key fun dir => { dir with
    pos := min 2 off
    id := if 0 < rest ∧ !lfsPairCmp dir.head lfs.root then 1 else 0 }
  lfsDirSeekGo key (tailFuel lfs + 1) rest

/-- `lfs_dir_tell_`. -/
def lfsDirTell (key : ℕ) : FsM ℤ := do
  let dir ← getHandle key
  return asSigned dir.pos

end Littlefs
