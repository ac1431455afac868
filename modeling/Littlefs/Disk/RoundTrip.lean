import Littlefs.Disk.Rereading

/-!
# A commit is fetched as it was written

`Begins` says where a commit may start: behind the directory that a fetch returned,
or on a block just erased, whatever its bytes are.  When the commit succeeds, a
fetch takes up the tags that were there and the ones written, with their data,
ends where the commit ended, and does not take up what lies behind.
-/

namespace Littlefs.Disk

open Words

/-- A fetch of `pair` takes up `tags` and stops where `commit` did, on a block that
counts as erased when `room` bytes are left. -/
def ReadsBack (store : Store) (pair : WordPair) (tags : List TagData) (commit : LfsCommit)
    (room : ℕ) : Prop :=
  ∃ fetched, store.fetchmatch Query.fetch pair = some fetched ∧
    fetched.dir.pair.1 = commit.block ∧
    store.takenFront Query.fetch fetched.dir.pair = tags ∧
    fetched.dir.off = commit.off ∧ fetched.dir.etag = commit.ptag ∧
    (commit.off + room ≤ store.cfg.blockSize → fetched.dir.erased = true)

/-- Where a commit begins, and the tags in front of it. -/
inductive Begins (store : Store) (lookup : Lookup) (pair : WordPair) :
    Store × LfsCommit → List TagData → Prop
  /-- Behind a directory that has been fetched. -/
  | append {fetched : Fetched} (stop : ℕ)
      (hfetch : store.fetchmatch lookup.query pair = some fetched) :
      Begins store lookup pair (store, fetched.dir.appended stop) (store.tags fetched.dir.pair.1)
  /-- On an erased block, with a revision that makes it the block to read. -/
  | fresh (block rev : Word) (stop : ℕ) (hblock : block = pair.1 ∨ block = pair.2)
      (hrev : ∀ other, other = pair.1 ∨ other = pair.2 → other ≠ block →
        Newer rev (store.revision other) ∨ store.log other = []) :
      Begins store lookup pair (freshCommit store block rev stop) []

/-- Whatever is committed reads back. -/
def RoundTrips (pair : WordPair) (state : Store × LfsCommit) (old : List TagData)
    (attrs : List LfsMattr) (room : ℕ) : Prop :=
  ∀ store' commit', writeCommit state.1 state.2 attrs = .ok (store', commit') →
    ReadsBack store' pair
      (old ++ (attrs.map fun attr => attr.tagData state.1) ++
        store'.forwardTags commit'.block commit'.off) commit' room

instance (store : Store) (pair : WordPair) (tags : List TagData) (commit : LfsCommit) (room : ℕ) :
    Decidable (ReadsBack store pair tags commit room) :=
  match hfetch : store.fetchmatch Query.fetch pair with
  | none => isFalse (by rintro ⟨fetched, hsome, -⟩; rw [hfetch] at hsome; cases hsome)
  | some fetched =>
      decidable_of_iff (fetched.dir.pair.1 = commit.block ∧
        store.takenFront Query.fetch fetched.dir.pair = tags ∧
        fetched.dir.off = commit.off ∧ fetched.dir.etag = commit.ptag ∧
        (commit.off + room ≤ store.cfg.blockSize → fetched.dir.erased = true)) (by
          constructor
          · exact fun hreads => ⟨fetched, hfetch, hreads⟩
          · rintro ⟨other, hsome, hreads⟩
            cases hfetch.symm.trans hsome
            exact hreads)

instance (pair : WordPair) (state : Store × LfsCommit) (old : List TagData)
    (attrs : List LfsMattr) (room : ℕ) : Decidable (RoundTrips pair state old attrs room) :=
  match hwrite : writeCommit state.1 state.2 attrs with
  | .error e => isTrue (by
      intro store' commit' hcommit
      cases hwrite.symm.trans hcommit)
  | .ok (store', commit') =>
      decidable_of_iff (ReadsBack store' pair
        (old ++ (attrs.map fun attr => attr.tagData state.1) ++
          store'.forwardTags commit'.block commit'.off) commit' room) (by
          constructor
          · intro hreads store'' commit'' hcommit
            cases hwrite.symm.trans hcommit
            exact hreads
          · exact fun hall => hall store' commit' hwrite)

variable {store : Store} {lookup : Lookup} {pair front : WordPair} {commit : LfsCommit}
  {tags : List TagData} {attrs : List LfsMattr}

/-- A fetch that reads a block again reads its tags back. -/
theorem Rereads.readsBack {old : List LogCommit} (hgeometry : Geometry store.cfg)
    (hrange : store.InRange pair) (hreads : Rereads store pair front old tags commit) :
    ReadsBack store pair ((old.flatMap LogCommit.entries).map Entry.tagData ++ tags ++
      store.forwardTags commit.block commit.off) commit (max 4 store.cfg.progSize) := by
  have hchosen := hreads.chosen
  have hfront := hreads.inRange
  have hblock := hreads.block_eq
  have hlog := hreads.log_ne
  have hend := hreads.ends
  have htags := hreads.tags_eq
  have hinvalid := hreads.invalid
  rw [← hblock]
  have hsize : 4 ≤ store.cfg.blockSize := Nat.le_trans (by norm_num) hgeometry.block_le
  have hchain : Chain store.cfg.blockSize (store.bytes front.1) Place.first
      (store.log front.1) := chain_completeCommits
  have hclean := Lookup.fetch_clean hchain
  obtain ⟨fuel, pass, hscan, htaken, hplace, hbelief⟩ :=
    Store.scanFront_eq front hfront.1 hsize hclean
  have hdir : pass.dir = (store.believed Lookup.fetch front).dir := congrArg Belief.dir hbelief
  have hpair : pass.dir.pair = front := by rw [hdir, believed_pair]
  have hfcrc : pass.fcrc = (store.believed Lookup.fetch front).fcrc :=
    congrArg Belief.fcrc hbelief
  have hbelieved : (store.believed Lookup.fetch front).dir.off = _ ∧
      (store.believed Lookup.fetch front).dir.etag = _ :=
    foldl_commit_off store.order (store.blank front) Place.first hlog
  obtain ⟨hoff, hetag⟩ := hbelieved
  rw [hend] at hplace
  rw [← hpair] at hinvalid
  obtain ⟨hstop, hnothing⟩ := hplace.stops Query.fetch fuel hinvalid hreads.ccrc
  have hfetch : store.fetchmatch Query.fetch pair =
      some (store.conclude pass (decide (commit.off + 4 ≤ store.cfg.blockSize))) := by
    have hclean' : ∀ front', store.chosen pair = some front' →
        Lookup.fetch.Clean ((store.log front'.1).flatMap LogCommit.entries) := by
      intro front' hchosen'
      obtain rfl : front = front' := Option.some.inj (hchosen.symm.trans hchosen')
      exact hclean
    obtain ⟨-, hnone⟩ | ⟨front', hchosen', -, hsome⟩ :=
      Store.fetchmatch_cases hsize hrange hclean'
    · rw [hchosen] at hnone
      cases hnone
    · obtain rfl : front = front' := Option.some.inj (hchosen.symm.trans hchosen')
      rw [hscan] at hsome
      exact hsome.trans (by rw [show Lookup.fetch.query = Query.fetch from rfl, hstop])
  refine ⟨_, hfetch, ?_, ?_, ?_, ?_, ?_⟩
  · calc (store.conclude pass _).dir.pair.1 = pass.dir.pair.1 := rfl
      _ = commit.block := by rw [hpair, hblock]
  · calc store.takenFront Query.fetch (store.conclude pass _).dir.pair
        = store.takenFront Query.fetch front := congrArg _ hpair
      _ = store.tags front.1 ++ store.taken Query.fetch (fuel + 1) pass := htaken
      _ = _ := by rw [hnothing, List.append_nil, htags]
  · calc (store.conclude pass _).dir.off = pass.dir.off := rfl
      _ = (endOf (store.log front.1)).off := by rw [hdir]; exact hoff
      _ = commit.off := by rw [hend]
  · calc (store.conclude pass _).dir.etag = pass.dir.etag := rfl
      _ = (endOf (store.log front.1)).ptag := by rw [hdir]; exact hetag
      _ = commit.ptag := by rw [hend]
  · intro hroom
    have hroom' : commit.off + 4 ≤ store.cfg.blockSize := by omega
    have hunit : commit.off ≤ store.cfg.blockSize - store.cfg.progSize := by omega
    have hdiroff : pass.dir.off = commit.off := by
      rw [hdir]
      exact hoff.trans (by rw [← endOf, hend])
    have hprog : (BitVec.ofNat 32 store.cfg.progSize).toNat = store.cfg.progSize := by
      have hlt := hgeometry.block_lt
      rw [BitVec.toNat_ofNat, Nat.mod_eq_of_lt (by omega)]
    have hcrc : store.crc front.1 commit.off store.cfg.progSize 0xffffffff = _ :=
      Store.crc_eq hfront.1 (by omega)
    have herased : (store.conclude pass
        (decide (commit.off + 4 ≤ store.cfg.blockSize))).dir.erased =
        store.checkErased pass (decide (commit.off + 4 ≤ store.cfg.blockSize)) := rfl
    rw [herased, Store.checkErased, hfcrc, believed_fcrc hunit htags]
    simp only [hprog, hdiroff, hpair, hcrc, Nat.mod_eq_zero_of_dvd hreads.dvd,
      decide_eq_true hroom',
      beq_self_eq_true, Bool.and_self]

/-! ## The round trip -/

theorem blockStore_geometry (image : List Octet) : Geometry (blockStore image).cfg where
  toConfigWf := smallConfig_wf
  prog_dvd := ⟨8, rfl⟩
  block_lt := by
    have hlt : smallConfig.blockSize < 2 ^ 32 := by decide
    exact hlt

/-- An attribute with its data in memory. -/
def memoryAttr (tag : Word) (data : List Octet) (hvalid : isvalid tag = true) : LfsMattr where
  tag := tag
  buffer := .memory data
  source := hvalid

theorem isvalid_firstCreate : isvalid (mktag tyCreate 0 0) = true := by decide

/-- The creation of an empty file `a`. -/
def createFile : List LfsMattr :=
  [memoryAttr (mktag tyCreate 0 0) [] isvalid_firstCreate,
    memoryAttr (mktag tyReg 0 1) [0x61] (by decide)]

/-- Revision 1 and one commit: the creation of an empty file `a`, with a forward CRC. -/
def createdImage : List Octet :=
  [0x01, 0x00, 0x00, 0x00, 0xbf, 0xef, 0xff, 0xff, 0x40, 0x00, 0x00, 0x01, 0x61, 0x5f, 0xef, 0xfc,
    0x09, 0x10, 0x00, 0x00, 0x00, 0xe5, 0x39, 0x4c, 0xc0, 0x0f, 0xf0, 0x00, 0x1b, 0x33, 0x21, 0x4a,
    0x7c]

def createdFetched : Fetched where
  dir :=
    { pair := (0, 1), rev := 1, off := 48, etag := 0x500ffc13, count := 1, erased := true
      tail := (nullWord, nullWord) }
  id := 1
  result := .next
  seed := 0x8834e100

/-- The store with program units of `progSize` bytes. -/
def unitStore (progSize : ℕ) (image : List Octet) : Store :=
  { blockStore image with cfg := { smallConfig with progSize := progSize } }

/-- Revision 1 and one commit, whose CRC tag has no room for the checksum behind it. -/
def shortCrcImage : List Octet :=
  [0x01, 0x00, 0x00, 0x00, 0xa0, 0x00, 0x03, 0xf7, 0x00, 0x00, 0x00, 0x00, 0xff, 0xff, 0xff, 0xff,
    0x0f, 0xf0, 0x00, 0x08, 0x8f, 0x78, 0xa2, 0xbc]

def shortCrcFetched : Fetched where
  dir :=
    { pair := (0, 1), rev := 1, off := 20, etag := 0x500ffc00, erased := true
      tail := (nullWord, nullWord) }
  id := 0
  result := .next
  seed := 0xb13ebe49

/-- A commit with a name of the size that marks a deletion, next to the block of
`createdImage`. -/
def deletedNameStore : Store :=
  { blockStore deletedNameImage with
    bytes := fun block address =>
      if block = 0 then deletedNameImage.getD address 0xff
      else if block = 1 then createdImage.getD address 0xff
      else 0xff }

/-- The bytes behind that name tag up to the end of the block, and one byte more. -/
def blockName : List Octet := Images.read (deletedNameStore.bytes 0) 8 120 ++ [0]

def otherFetched : Fetched where
  dir :=
    { pair := (1, 0), rev := 1, off := 48, etag := 0x500ffc13, count := 1, erased := true
      tail := (nullWord, nullWord) }
  id := 0
  result := .noEntry
  seed := 0x8834e100

end Littlefs.Disk
