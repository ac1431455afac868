import Littlefs.Find

/-!
# Opening, committing and closing files
-/

namespace Littlefs

/-- `lfs_file_sync_`. -/
def lfsFileSync (key : ℕ) : FsM Unit := do
  let file ← getHandle key
  if file.flags.erred then
    return ()
  orErr key (lfsFileFlush key)
  let file ← getHandle key
  if file.flags.dirty ∧ !lfsPairIsnull file.m.pair then
    if ¬file.flags.inline then
      lfsBdSync
    let lfs ← get
    if file.flags.inline ∧ lfs.cfg.cacheSize < file.ctz.size then
      throw (.panic .sliceRange)
    let struct : Mattr :=
      if file.flags.inline then
        ⟨lfsMktag tyInlinestruct file.id file.ctz.size,
          .data (.bytes (slice file.cache 0 file.ctz.size))⟩
      else
        ⟨lfsMktag tyCtzstruct file.id 8, .data (.pair (file.ctz.head, file.ctz.size))⟩
    let _ ← orErr key (lfsDirCommit (some key) file.m
      [struct, ⟨lfsMktag fromUserattrs file.id file.attrs.length, .attrs file.attrs⟩])
    modifyHandle key fun file => { file with flags := { file.flags with dirty := false } }

/-- `lfs_file_close_`. -/
def lfsFileClose (key : ℕ) : FsM Unit := do
  let file ← getHandle key
  let synced ← tryError (if file.flags.erred then pure () else lfsFileSync key)
  lfsMlistRemove key
  liftExcept synced

/-- The flags a caller passes to open a file. -/
structure OpenMode where
  read : Bool := false
  write : Bool := false
  create : Bool := false
  excl : Bool := false
  trunc : Bool := false
  append : Bool := false
  deriving DecidableEq, Repr

def OpenMode.flags (mode : OpenMode) : OpenFlags :=
  { read := mode.read, write := mode.write, create := mode.create, excl := mode.excl,
    trunc := mode.trunc, append := mode.append }

/-- `LfsFileConfig`. -/
structure FileConfig where
  attrs : List UserAttr := []
  hasBuffer : Bool := false
  deriving DecidableEq, Repr

/-- The eight bytes read into `file.ctz`. -/
def Payload.toCtz : Payload → Ctz
  | .pair words => ⟨words.1, words.2⟩
  | .bytes data => ⟨readWord data 0, readWord data 4⟩
  | _ => {}

/-- Close the half-opened file and return the error. -/
def closeAndFail {α : Type} (key : ℕ) (e : Error) : FsM α := do
  let _ ← tryError (lfsFileClose key)
  failWith e

/-- The result of a call whose error closes the half-opened file. -/
def orClose {α : Type} (key : ℕ) (program : FsM α) : FsM α := do
  match ← tryError program with
  | .ok value => return value
  | .error e => closeAndFail key e

/-- The struct tag a file is opened with: `none` for a file just created. -/
def openStruct (key : ℕ) (mode : OpenMode) (found : Found) : FsM (Option Tag) := do
  match found.tag with
  | none =>
      if ¬mode.create then
        closeAndFail key .noEntry
      if lfsPathIsdir found.path then
        closeAndFail key .notDir
      let lfs ← get
      let nlen := lfsPathNamelen found.path
      if lfs.nameMax < nlen then
        closeAndFail key .nameTooLong
      lfsAllocCkpoint
      match ← tryError (lfsDirCommit (some key) found.dir
          [⟨⟨tyCreate, found.id, 0⟩, .data .empty⟩,
            ⟨lfsMktag tyReg found.id nlen, .data (.bytes (found.path.take nlen))⟩,
            ⟨⟨tyInlinestruct, found.id, 0⟩, .data .empty⟩]) with
      | .ok _ => return none
      | .error e => closeAndFail key (if e = .noSpace then .nameTooLong else e)
  | some tag =>
      if mode.excl then
        closeAndFail key .exists
      else if tag.type3 ≠ tyReg then
        closeAndFail key .isDir
      else if mode.trunc then
        modifyHandle key fun file => { file with flags := { file.flags with dirty := true } }
        return some ⟨tyInlinestruct, found.id, 0⟩
      else
        let (tag, data) ←
          orClose key (lfsDirGet found.dir ⟨0x700, true⟩ ⟨tyStruct, found.id, 8⟩)
        modifyHandle key fun file => { file with ctz := data.toCtz }
        return some tag

/-- Read the attributes of the configuration into its buffers, and mark the file
`DIRTY` when it is open for writing. -/
def openAttrs (key : ℕ) (mode : OpenMode) (done : List UserAttr) : List UserAttr → FsM Unit
  | [] => return ()
  | attr :: attrs => do
      let file ← getHandle key
      let attr ←
        if mode.read then do
          match ← tryError (lfsDirGet file.m ⟨0x7ff, true⟩
              (lfsMktag (tyUserattr + attr.type) file.id attr.buffer.length)) with
          | .ok (_, data) =>
              pure { attr with buffer := slice data.toBytes 0 attr.buffer.length }
          | .error .noEntry => pure attr
          | .error e => closeAndFail key e
        else pure attr
      modifyHandle key fun file => { file with attrs := done ++ attr :: attrs }
      if mode.write then
        let lfs ← get
        if lfs.attrMax < attr.buffer.length then
          closeAndFail key .noSpace
        modifyHandle key fun file => { file with flags := { file.flags with dirty := true } }
      openAttrs key mode (done ++ [attr]) attrs

/-- `lfs_file_opencfg_`.  `file` is the caller's `LfsFile` as it is before the
call; an error of the lookup comes before it is on the list, with no flag set
that closing would act on. -/
def lfsFileOpencfg (file : Handle) (path : Bytes) (mode : OpenMode) (cfg : FileConfig) :
    FsM Unit := do
  if mode.write then
    lfsFsForceconsistency
  let key := file.key
  let found ← lfsDirFind path
  if found.tag = none ∧ !lfsPathIslast found.path then
    failWith .noEntry
  lfsMlistAppend { file with
    flags := mode.flags, pos := 0, off := 0, cache := [], m := found.dir, id := found.id,
    type := .reg, attrs := cfg.attrs }
  let tag ← openStruct key mode found
  openAttrs key mode [] cfg.attrs
  let lfs ← get
  if ¬cfg.hasBuffer ∧ ¬lfs.cfg.heap then
    closeAndFail key .noMemory
  let size := (tag.map Tag.size).getD 0
  if (tag.map Tag.type3).getD tyInlinestruct = tyInlinestruct then
    modifyHandle key fun file =>
      { file with ctz := ⟨blockInline, size⟩, flags := { file.flags with inline := true } }
    if 0 < size then
      let file ← getHandle key
      let n := min lfs.cfg.cacheSize 0x3fe
      let (_, data) ← orClose key (lfsDirGet file.m ⟨0x700, true⟩ ⟨tyStruct, file.id, n⟩)
      modifyHandle key fun file => { file with cache := slice data.toBytes 0 n }

/-! ## Writing at the position of a file -/

/-- Fill the gap behind the end of a file with zeros, up to `pos`. -/
def fillGap (key pos : ℕ) : ℕ → FsM Unit
  | 0 => throw .outOfFuel
  | fuel + 1 => do
      let file ← getHandle key
      if file.pos < pos then
        lfsFileFlushedwrite key [0]
        fillGap key pos fuel
      else
        return ()

/-- `lfs_file_write_`. -/
def lfsFileWrite (key : ℕ) (data : Bytes) : FsM Unit := do
  let file ← getHandle key
  if file.flags.reading then
    lfsFileFlush key
  let file ← getHandle key
  if file.flags.append ∧ file.pos < file.ctz.size then
    modifyHandle key fun file => { file with pos := file.ctz.size }
  let lfs ← get
  let file ← getHandle key
  if lfs.fileMax < (file.pos + data.length) % 2 ^ 32 then
    failWith .fileTooBig
  if ¬file.flags.writing ∧ file.ctz.size < file.pos then
    modifyHandle key fun file => { file with pos := file.ctz.size }
    fillGap key file.pos (file.pos - file.ctz.size + 1)
  lfsFileFlushedwrite key data
  modifyHandle key fun file => { file with flags := { file.flags with erred := false } }

end Littlefs
