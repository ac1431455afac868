import Littlefs.Device
import Littlefs.Disk.Tags
import Littlefs.Lib.Images

/-!
# Fetching a metadata pair from its bytes

`lfs_dir_fetchmatch` as it runs over the bytes of two blocks, on a device that
answers every read inside a block.  The scan keeps temporary values next to the
fields of the `LfsMdir` and publishes them at a CRC tag whose checksum agrees.
`order` is the byte order of the host: words that the source reads through
`as_mut_bytes` are seen in it.
-/

namespace Littlefs.Disk

open Words

/-- `[lfs_block_t; 2]`. -/
abbrev WordPair := Word × Word

def WordPair.toPair (pair : WordPair) : Pair := (pair.1.toNat, pair.2.toNat)

structure LfsGstate where
  tag : Word := 0
  pair : WordPair := (0, 0)
  deriving DecidableEq, Repr

def LfsGstate.hasmovehere (a : LfsGstate) (pair : WordPair) : Bool :=
  (tagOf a.tag).type1 != 0 && !lfsPairCmp (WordPair.toPair a.pair) (WordPair.toPair pair)

structure LfsFcrc where
  size : Word
  crc : Word
  deriving DecidableEq, Repr

structure LfsMdir where
  pair : WordPair := (0, 0)
  rev : Word := 0
  off : ℕ := 0
  etag : Word := 0
  count : ℕ := 0
  erased : Bool := false
  split : Bool := false
  tail : WordPair := (0, 0)
  deriving DecidableEq, Repr

/-- `lfs_t` as the metadata log sees it: the host, the mounted geometry, the global
state and the bytes of every block. -/
structure Store where
  cfg : Config
  order : ByteOrder
  blockCount : ℕ
  seed : Word := 0
  gstate : LfsGstate := {}
  gdisk : LfsGstate := {}
  gdelta : LfsGstate := {}
  bytes : Word → ℕ → Octet

/-! ## Reading -/

/-- `lfs_bd_read`; `none` is `Err(Corrupt)`. -/
def Store.read (store : Store) (block : Word) (off size : ℕ) : Option (List Octet) :=
  if store.cfg.blockSize < off + size ∨ store.blockCount ≠ 0 ∧ store.blockCount ≤ block.toNat then
    none
  else
    some (Images.read (store.bytes block) off size)

/-- The loop of `lfs_bd_crc`.  The checksum of the chunks before a failed read stays
in the caller's variable. -/
def Store.crcGo (store : Store) (block : Word) : ℕ → ℕ → ℕ → Word → Word × Bool
  | 0, _, _, crc => (crc, true)
  | fuel + 1, off, size, crc =>
      if size = 0 then
        (crc, true)
      else
        match store.read block off (min size 8) with
        | none => (crc, false)
        | some dat =>
            Store.crcGo store block fuel (off + min size 8) (size - min size 8) (lfsCrc crc dat)

/-- `lfs_bd_crc`. -/
def Store.crc (store : Store) (block : Word) (off size : ℕ) (crc : Word) : Word × Bool :=
  store.crcGo block size off size crc

/-- `[u8]::cmp`. -/
def cmpBytes : List Octet → List Octet → Ordering
  | [], [] => .eq
  | [], _ :: _ => .lt
  | _ :: _, [] => .gt
  | a :: left, b :: right => (compare a.toNat b.toNat).then (cmpBytes left right)

/-- The loop of `lfs_bd_cmp`. -/
def Store.cmpGo (store : Store) (block : Word) : ℕ → ℕ → List Octet → Option Ordering
  | 0, _, _ => some .eq
  | fuel + 1, off, buffer =>
      if buffer = [] then
        some .eq
      else
        match store.read block off (min buffer.length 8) with
        | none => none
        | some dat =>
            match cmpBytes dat (buffer.take 8) with
            | .eq => Store.cmpGo store block fuel (off + 8) (buffer.drop 8)
            | order => some order

/-- `lfs_bd_cmp`. -/
def Store.cmp (store : Store) (block : Word) (off : ℕ) (buffer : List Octet) : Option Ordering :=
  store.cmpGo block buffer.length off buffer

/-! ## Lookups -/

/-- A callback of a fetch: it is given a tag and the place of its data. -/
abbrev Callback := Store → Word → Word → ℕ → Option Ordering

/-- `lfs_dir_find_match`. -/
def findMatch (name : List Octet) : Callback := fun store tag block off =>
  let diff := min name.length (tagOf tag).size
  match store.cmp block off (name.take diff) with
  | some .eq => some (compare name.length (tagOf tag).size)
  | res => res

/-- `lfs_fs_parent_match`. -/
def parentMatch (pair : WordPair) : Callback := fun store _ block off =>
  match store.read block off 8 with
  | none => none
  | some buffer =>
      let child : WordPair :=
        (store.order.le (store.order.ofBytes buffer),
          store.order.le (store.order.ofBytes (buffer.drop 4)))
      if lfsPairCmp child.toPair pair.toPair then some .lt else some .eq

/-- What a caller passes to `lfs_dir_fetchmatch`. -/
structure Query where
  fmask : Word
  ftag : Word
  cb : Callback

/-- `lfs_dir_fetch`: the pattern has the validity bit set, so no tag matches. -/
def Query.fetch : Query where
  fmask := 0xffffffff
  ftag := 0xffffffff
  cb := fun _ _ _ _ => none

/-- `lfs_dir_find`. -/
def Query.find (name : List Octet) : Query where
  fmask := mktag 0x780 0 0
  ftag := mktag tyName 0 0
  cb := findMatch name

/-- `lfs_fs_parent`. -/
def Query.parent (pair : WordPair) : Query where
  fmask := mktag 0x7ff 0 0x3ff
  ftag := mktag tyDirstruct 0 8
  cb := parentMatch pair

def Query.selects (query : Query) (tag : Word) : Bool :=
  query.fmask &&& tag == query.fmask &&& query.ftag

/-! ## The scan of one block -/

/-- The temporary values of the scan; a `besttag` of `-1` has all bits set. -/
structure Temp where
  count : ℕ := 0
  tail : WordPair := (nullWord, nullWord)
  split : Bool := false
  besttag : Word := nullWord
  deriving DecidableEq, Repr

/-- The variables of the scan, with the fields of the `LfsMdir` it fills. -/
structure Pass where
  off : ℕ := 0
  ptag : Word := nullWord
  crc : Word
  temp : Temp
  fcrc : Option LfsFcrc := none
  dir : LfsMdir
  besttag : Word
  seed : Word

def Temp.name (temp : Temp) (tag : Tag) : Temp :=
  if temp.count ≤ tag.id then { temp with count := tag.id + 1 } else temp

def Temp.splice (temp : Temp) (tag : Word) : Temp :=
  let deleteTag := mktag tyDelete 0 0 ||| (mktag 0 0x3ff 0 &&& temp.besttag)
  { temp with
    count := (((temp.count : ℤ) + (tagOf tag).splice) % 2 ^ 16).toNat
    besttag :=
      if tag = deleteTag then temp.besttag ||| 0x80000000
      else if temp.besttag ≠ nullWord ∧ (tagOf tag).id ≤ (tagOf temp.besttag).id then
        temp.besttag + mkdiff (tagOf tag).splice
      else temp.besttag }

/-- `temptail` stays as the host read it. -/
def Temp.setTail (temp : Temp) (order : ByteOrder) (tag : Tag) (buffer : List Octet) : Temp :=
  { temp with
    split := tag.chunk &&& 1 != 0
    tail := (order.ofBytes buffer, order.ofBytes (buffer.drop 4)) }

/-- `lfs_fcrc_fromle32` over the bytes read. -/
def LfsFcrc.ofBytes (order : ByteOrder) (buffer : List Octet) : LfsFcrc where
  size := order.le (order.ofBytes buffer)
  crc := order.le (order.ofBytes (buffer.drop 4))

def Temp.select (temp : Temp) (tag : Word) (res : Ordering) : Temp :=
  if res = .eq then
    { temp with besttag := tag }
  else if mktag 0x7ff 0x3ff 0 &&& tag = mktag 0x7ff 0x3ff 0 &&& temp.besttag then
    { temp with besttag := nullWord }
  else if res = .gt ∧ (tagOf tag).id ≤ (tagOf temp.besttag).id then
    { temp with besttag := tag ||| 0x80000000 }
  else
    temp

/-- The directory modification tags; `off` is the place of the tag word. -/
def Store.note (store : Store) (block : Word) (off : ℕ) (tag : Word) (temp : Temp)
    (fcrc : Option LfsFcrc) : Option (Temp × Option LfsFcrc) :=
  if (tagOf tag).type1 = tyName then
    some (temp.name (tagOf tag), fcrc)
  else if (tagOf tag).type1 = tySplice then
    some (temp.splice tag, fcrc)
  else if (tagOf tag).type1 = tyTail then
    match store.read block (off + 4) 8 with
    | none => none
    | some buffer => some (temp.setTail store.order (tagOf tag) buffer, fcrc)
  else if (tagOf tag).type3 = tyFcrc then
    match store.read block (off + 4) 8 with
    | none => none
    | some buffer => some (temp, some (LfsFcrc.ofBytes store.order buffer))
  else
    some (temp, fcrc)

/-- Ask the callback about a tag that matches. -/
def Store.answer (store : Store) (query : Query) (block : Word) (off : ℕ) (tag : Word)
    (temp : Temp) : Option Temp :=
  if query.selects tag then
    match query.cb store tag block (off + 4) with
    | none => none
    | some res => some (temp.select tag res)
  else
    some temp

/-- A CRC tag whose checksum agrees. -/
def Pass.publish (pass : Pass) (order : ByteOrder) (off : ℕ) (tag crc : Word) : Pass :=
  let ptag := perturb (tagOf tag).chunk tag
  { pass with
    off := off
    ptag := ptag
    crc := 0xffffffff
    besttag := pass.temp.besttag
    seed := lfsCrc pass.seed (order.bytes crc)
    dir := { pass.dir with
      off := off + (tagOf tag).dsize
      etag := ptag
      count := pass.temp.count
      tail := pass.temp.tail
      split := pass.temp.split } }

/-- How a turn of the loop ends: with the next turn, or with a `break` that leaves
`maybeerased`. -/
inductive Turn
  | next (pass : Pass)
  | stop (maybeerased : Bool)

def Store.turn (store : Store) (query : Query) (pass : Pass) : Turn :=
  let block := pass.dir.pair.1
  let off := pass.off + (tagOf pass.ptag).dsize
  match store.read block off 4 with
  | none => .stop false
  | some tagBuf =>
      let crc := lfsCrc pass.crc tagBuf
      let tag := ofBeBytes tagBuf ^^^ pass.ptag
      if ¬isvalid tag then
        .stop ((tagOf pass.ptag).type2 == tyCcrc)
      else if store.cfg.blockSize < off + (tagOf tag).dsize then
        .stop false
      else if (tagOf tag).type2 = tyCcrc then
        match store.read block (off + 4) 4 with
        | none => .stop false
        | some dcrc =>
            if crc ≠ ofLeBytes dcrc then .stop false
            else .next (pass.publish store.order off tag crc)
      else
        match store.crc block (off + 4) ((tagOf tag).dsize - 4) crc with
        | (_, false) => .stop false
        | (crc, true) =>
            match store.note block off tag pass.temp pass.fcrc with
            | none => .stop false
            | some (temp, fcrc) =>
                match store.answer query block off tag temp with
                | none => .stop false
                | some temp =>
                    .next { pass with
                      off := off, ptag := tag, crc := crc, temp := temp, fcrc := fcrc }

/-- The loop; every turn moves at least four bytes on. -/
def Store.scan (store : Store) (query : Query) : ℕ → Pass → Pass × Bool
  | 0, pass => (pass, false)
  | fuel + 1, pass =>
      match store.turn query pass with
      | .next pass => Store.scan store query fuel pass
      | .stop maybeerased => (pass, maybeerased)

/-- The pass over one block.  The revision goes into the checksum in its bytes on
disk, and `dir.rev` through `from_le`. -/
def Store.scanBlock (store : Store) (query : Query) (pair : WordPair) (rev : Word) : Pass × Bool :=
  store.scan query (store.cfg.blockSize + 1)
    { crc := lfsCrc 0xffffffff (store.order.bytes (store.order.le rev))
      temp := {}
      dir := { pair := pair, rev := store.order.le rev }
      besttag := nullWord
      seed := store.seed }

/-! ## The pair -/

/-- `lfs_scmp`. -/
def lfsScmp (a b : Word) : ℤ := (a - b).toInt

/-- How a fetch with a match ends: a tag, `Err(NoEntry)`, or `Ok(0)`. -/
inductive Answer
  | found (tag : Word)
  | noEntry
  | next
  deriving DecidableEq, Repr

structure Fetched where
  dir : LfsMdir
  id : ℕ
  result : Answer
  seed : Word
  deriving DecidableEq, Repr

/-- The check of the forward CRC. -/
def Store.checkErased (store : Store) (pass : Pass) (maybeerased : Bool) : Bool :=
  match pass.fcrc with
  | none => false
  | some fcrc =>
      maybeerased && pass.dir.off % store.cfg.progSize == 0 &&
        (store.crc pass.dir.pair.1 pass.dir.off fcrc.size.toNat 0xffffffff).1 == fcrc.crc

/-- The virtual removal of the source of a pending move. -/
def Store.syntheticMove (store : Store) (pair : WordPair) (besttag : Word) : Word :=
  if store.gdisk.hasmovehere pair then
    if (tagOf store.gdisk.tag).id = (tagOf besttag).id then
      besttag ||| 0x80000000
    else if besttag ≠ nullWord ∧ (tagOf store.gdisk.tag).id < (tagOf besttag).id then
      besttag - mktag 0 1 0
    else
      besttag
  else
    besttag

/-- The end of a fetch that found a valid commit. -/
def Store.conclude (store : Store) (pass : Pass) (maybeerased : Bool) : Fetched :=
  let dir := { pass.dir with erased := store.checkErased pass maybeerased }
  let besttag := store.syntheticMove dir.pair pass.besttag
  { dir := dir
    id := min (tagOf besttag).id dir.count
    result :=
      if isvalid besttag then .found besttag
      else if (tagOf besttag).id < dir.count then .noEntry
      else .next
    seed := pass.seed }

/-- The revision word of a block, zero when it cannot be read. -/
def Store.revision (store : Store) (block : Word) : Word :=
  ofLeBytes ((store.read block 0 4).getD [0, 0, 0, 0])

/-- `lfs_dir_fetchmatch`; an `Err(Corrupt)` is `none`.  The first comparison of the
revisions, with a word not read yet, cannot change `r`. -/
def Store.fetchmatch (store : Store) (query : Query) (pair : WordPair) : Option Fetched :=
  if store.blockCount ≠ 0 ∧
      (store.blockCount ≤ pair.1.toNat ∨ store.blockCount ≤ pair.2.toNat) then
    none
  else
    let newer := (store.read pair.2 0 4).isSome &&
      decide (0 < lfsScmp (store.revision pair.2) (store.revision pair.1))
    let pair := if newer then pair.swap else pair
    let (pass, maybeerased) := store.scanBlock query pair (store.revision pair.1)
    if pass.dir.off ≠ 0 then
      some (store.conclude pass maybeerased)
    else
      let (pass, maybeerased) := store.scanBlock query pair.swap (store.revision pair.2)
      if pass.dir.off ≠ 0 then
        some (store.conclude pass maybeerased)
      else
        none

end Littlefs.Disk
