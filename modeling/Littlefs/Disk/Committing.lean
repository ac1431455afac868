import Littlefs.Commit
import Littlefs.Disk.Fetchmatch

/-!
# Writing a commit

`lfs_dir_commitprog`, `lfs_dir_commitattr` and `lfs_dir_commitcrc` on a device that
stores what is programmed.  A commit grows from `start` (the source's `begin`) up to
`stop` (`end`); `crc` and `ptag` run along with it.
-/

namespace Littlefs.Disk

open Words

structure LfsCommit where
  block : Word
  off : ℕ
  ptag : Word
  crc : Word
  start : ℕ
  stop : ℕ
  deriving DecidableEq, Repr

/-- Where the data of an attribute comes from: memory, or the `lfs_diskoff` of data
that is on the device already. -/
inductive Buffer
  | memory (data : List Octet)
  | disk (block : Word) (off : ℕ)
  deriving DecidableEq, Repr

def Buffer.isMemory : Buffer → Bool
  | memory _ => true
  | disk _ _ => false

/-- `lfs_mattr`: the validity bit of the tag says where its data is. -/
structure LfsMattr where
  tag : Word
  buffer : Buffer
  source : isvalid tag = buffer.isMemory

/-- `lfs_bd_prog` and the flush behind it. -/
def Store.prog (store : Store) (block : Word) (off : ℕ) (data : List Octet) : Store :=
  { store with
    bytes := Function.update store.bytes block (Images.write (store.bytes block) off data) }

/-- `lfs_dir_commitprog`. -/
def lfsDirCommitprog (store : Store) (commit : LfsCommit) (buffer : List Octet) :
    Store × LfsCommit :=
  (store.prog commit.block commit.off buffer,
    { commit with crc := lfsCrc commit.crc buffer, off := commit.off + buffer.length })

/-- The loop that copies data from the device, byte by byte. -/
def copyFromDisk (block : Word) : ℕ → ℕ → Store × LfsCommit → Except Fault (Store × LfsCommit)
  | 0, _, state => .ok state
  | size + 1, off, (store, commit) =>
      match store.read block off 1 with
      | none => .error (.error .corrupt)
      | some dat => copyFromDisk block size (off + 1) (lfsDirCommitprog store commit dat)

def setPtag (tag : Word) (state : Store × LfsCommit) : Store × LfsCommit :=
  (state.1, { state.2 with ptag := tag &&& 0x7fffffff })

/-- `lfs_dir_commitattr`. -/
def lfsDirCommitattr (state : Store × LfsCommit) (attr : LfsMattr) :
    Except Fault (Store × LfsCommit) :=
  let (store, commit) := state
  let dsize := (tagOf attr.tag).dsize
  if commit.stop < commit.off + dsize then
    .error (.error .noSpace)
  else
    let ntag := store.order.be ((attr.tag &&& 0x7fffffff) ^^^ commit.ptag)
    let (store, commit) := lfsDirCommitprog store commit (store.order.bytes ntag)
    match attr.buffer with
    | .memory data =>
        if data.length < dsize - 4 then .error (.panic .sliceRange)
        else .ok (setPtag attr.tag (lfsDirCommitprog store commit (data.take (dsize - 4))))
    | .disk block off =>
        (copyFromDisk block (dsize - 4) off (store, commit)).map (setPtag attr.tag)

/-- The tag of a forward CRC. -/
def fcrcTag : Word := mktag tyFcrc 0x3ff 8

theorem isvalid_fcrcTag : isvalid fcrcTag = true := by decide

/-- The bytes of an `LfsFcrc` after `lfs_fcrc_tole32`. -/
def LfsFcrc.bytes (order : ByteOrder) (fcrc : LfsFcrc) : List Octet :=
  order.bytes (order.le fcrc.size) ++ order.bytes (order.le fcrc.crc)

/-- The forward CRC over the program unit at `noff`. -/
def Store.forwardCrc (store : Store) (block : Word) (noff : ℕ) : LfsFcrc where
  size := BitVec.ofNat 32 store.cfg.progSize
  crc := (store.crc block noff store.cfg.progSize 0xffffffff).1

/-- The attribute that carries it. -/
def fcrcAttr (order : ByteOrder) (fcrc : LfsFcrc) : LfsMattr where
  tag := fcrcTag
  buffer := .memory (fcrc.bytes order)
  source := isvalid_fcrcTag

/-- The byte that decides about the next validity bit; a failed read leaves it
`0xff`. -/
def Store.eperturb (store : Store) (block : Word) (noff : ℕ) : Octet :=
  ((store.read block noff 1).getD [0xff]).headD 0xff

/-- Where the next CRC tag ends: a tag spans at most `0x3fe` bytes, and the last one
leaves room for the forward CRC. -/
def nextOff (stop off : ℕ) : ℕ :=
  let noff := min (stop - (off + 4)) 0x3fe + (off + 4)
  if noff < stop then min noff (stop - 20) else noff

/-- The CRC tag that ends at `noff`. -/
def closingTag (commit : LfsCommit) (noff : ℕ) (eperturb : Octet) : Word :=
  mktag (tyCcrc + (~~~eperturb).toNat / 2 ^ 7) 0x3ff (noff - (commit.off + 4))

/-- The checksum with the CRC tag under it. -/
def closingCrc (state : Store × LfsCommit) (noff : ℕ) (eperturb : Octet) : Word :=
  lfsCrc state.2.crc (state.1.order.bytes
    (state.1.order.be (closingTag state.2 noff eperturb ^^^ state.2.ptag)))

/-- Write the CRC tag and its checksum, and start anew behind it. -/
def closeCommit (state : Store × LfsCommit) (noff : ℕ) (eperturb : Octet) : Store × LfsCommit :=
  let (store, commit) := state
  let ntag := closingTag commit noff eperturb
  (store.prog commit.block commit.off
      (store.order.bytes (store.order.be (ntag ^^^ commit.ptag)) ++
        store.order.bytes (store.order.le (closingCrc state noff eperturb))),
    { commit with
      off := noff
      ptag := ntag ^^^ (0x80 &&& ~~~eperturb).setWidth 32 <<< 24
      crc := 0xffffffff })

/-- The loop of `lfs_dir_commitcrc`; `first` is `off1` and `crc1` once they are set. -/
def commitcrcLoop (stop : ℕ) : ℕ → Store × LfsCommit → Option (ℕ × Word) →
    Except Fault ((Store × LfsCommit) × Option (ℕ × Word))
  | 0, state, first => .ok (state, first)
  | fuel + 1, state, first =>
      let (store, commit) := state
      if commit.off < stop then
        let noff := nextOff stop commit.off
        if stop ≤ noff ∧ noff ≤ store.cfg.blockSize - store.cfg.progSize then
          let eperturb := store.eperturb commit.block noff
          match lfsDirCommitattr state
              (fcrcAttr store.order (store.forwardCrc commit.block noff)) with
          | .error e => .error e
          | .ok state =>
              commitcrcLoop stop fuel (closeCommit state noff eperturb)
                (first.or (some (state.2.off + 4, closingCrc state noff eperturb)))
        else
          commitcrcLoop stop fuel (closeCommit state noff 0xff)
            (first.or (some (commit.off + 4, closingCrc state noff 0xff)))
      else
        .ok (state, first)

/-- The check of what has been written, against the first checksum. -/
def checkCommit (store : Store) (commit : LfsCommit) (off1 : ℕ) (crc1 : Word) :
    Except Fault Unit :=
  match store.crc commit.block commit.start (off1 - commit.start) 0xffffffff with
  | (_, false) => .error (.error .corrupt)
  | (crc, true) =>
      if crc ≠ crc1 then .error (.error .corrupt)
      else
        match store.crc commit.block off1 4 crc with
        | (_, false) => .error (.error .corrupt)
        | (crc, true) => if crc ≠ 0 then .error (.error .corrupt) else .ok ()

/-- `lfs_dir_commitcrc`. -/
def lfsDirCommitcrc (state : Store × LfsCommit) : Except Fault (Store × LfsCommit) :=
  let cfg := state.1.cfg
  let stop := lfsAlignup (min (state.2.off + 20) cfg.blockSize) cfg.progSize
  match commitcrcLoop stop (stop - state.2.off + 1) state none with
  | .error e => .error e
  | .ok (state, first) =>
      let (off1, crc1) := first.getD (0, 0)
      match checkCommit state.1 state.2 off1 crc1 with
      | .error e => .error e
      | .ok () => .ok state

/-- The attributes of a commit and its checksum. -/
def writeCommit (store : Store) (commit : LfsCommit) (attrs : List LfsMattr) :
    Except Fault (Store × LfsCommit) :=
  match attrs.foldlM lfsDirCommitattr (store, commit) with
  | .error e => .error e
  | .ok state => lfsDirCommitcrc state

/-- A commit behind the ones that `dir` has seen. -/
def LfsMdir.appended (dir : LfsMdir) (stop : ℕ) : LfsCommit where
  block := dir.pair.1
  off := dir.off
  ptag := dir.etag
  crc := 0xffffffff
  start := dir.off
  stop := stop

/-- The first commit of an erased block, with its revision written. -/
def freshCommit (store : Store) (block rev : Word) (stop : ℕ) : Store × LfsCommit :=
  lfsDirCommitprog store
    { block := block, off := 0, ptag := 0xffffffff, crc := 0xffffffff, start := 0, stop := stop }
    (store.order.bytes (store.order.le rev))

end Littlefs.Disk
