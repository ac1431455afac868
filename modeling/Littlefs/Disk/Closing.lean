import Littlefs.Rewrite
import Littlefs.Disk.Encoding
import Littlefs.Disk.Lookups

/-!
# Closing a commit

`Pending` says that the block holds the encoding of the tags written so far and that
the checksum is over them.  A CRC tag turns a pending commit into a complete one,
and the loop of `lfs_dir_commitcrc` writes as many of them as reach the end of a
program unit.
-/

namespace Littlefs.Disk

open Words

/-- The geometry that `lfs_init` admits, as far as the metadata log depends on it. -/
structure Geometry (cfg : Config) : Prop extends ConfigWf cfg where
  prog_dvd : cfg.progSize ∣ cfg.blockSize
  block_lt : cfg.blockSize < 2 ^ 32

/-- `tags` stand from `place` on, up to where the commit goes on. -/
structure Pending (store : Store) (commit : LfsCommit) (place : Place) (tags : List TagData) :
    Prop where
  off_eq : commit.off = place.off + (encodeTags place.ptag tags).length
  read_eq : Images.read (store.bytes commit.block) place.off (encodeTags place.ptag tags).length =
    encodeTags place.ptag tags
  ptag_eq : commit.ptag = lastTag place.ptag tags
  crc_eq : commit.crc = lfsCrc 0xffffffff
    (Images.read (store.bytes commit.block) place.start (commit.off - place.start))
  start_le : place.start ≤ place.off
  plain : ∀ entry ∈ tags, IsPlain entry

/-- Only bytes of `block` from `low` to `high` differ. -/
structure WritesWithin (store store' : Store) (block : Word) (low high : ℕ) : Prop where
  cfg_eq : store'.cfg = store.cfg
  order_eq : store'.order = store.order
  blockCount_eq : store'.blockCount = store.blockCount
  gdisk_eq : store'.gdisk = store.gdisk
  other : ∀ other ≠ block, store'.bytes other = store.bytes other
  before : ∀ address < low, store'.bytes block address = store.bytes block address
  behind : ∀ address, high ≤ address → store'.bytes block address = store.bytes block address

variable {store store' store'' : Store} {commit commit' : LfsCommit} {state : Store × LfsCommit}
  {place : Place} {tags more : List TagData} {block : Word} {data : List Octet}
  {size low low' high high' noff off stop fuel : ℕ} {eperturb : Octet}

namespace WritesWithin

theorem refl : WritesWithin store store block low high :=
  ⟨rfl, rfl, rfl, rfl, fun _ _ => rfl, fun _ _ => rfl, fun _ _ => rfl⟩

theorem trans (hfirst : WritesWithin store store' block low high)
    (hsecond : WritesWithin store' store'' block low high) :
    WritesWithin store store'' block low high where
  cfg_eq := hsecond.cfg_eq.trans hfirst.cfg_eq
  order_eq := hsecond.order_eq.trans hfirst.order_eq
  blockCount_eq := hsecond.blockCount_eq.trans hfirst.blockCount_eq
  gdisk_eq := hsecond.gdisk_eq.trans hfirst.gdisk_eq
  other := fun other hne => (hsecond.other other hne).trans (hfirst.other other hne)
  before := fun address hlt => (hsecond.before address hlt).trans (hfirst.before address hlt)
  behind := fun address hle => (hsecond.behind address hle).trans (hfirst.behind address hle)

theorem mono (hwrites : WritesWithin store store' block low high) (hlow : low' ≤ low)
    (hhigh : high ≤ high') : WritesWithin store store' block low' high' :=
  { hwrites with
    before := fun address hlt => hwrites.before address (Nat.lt_of_lt_of_le hlt hlow)
    behind := fun address hle => hwrites.behind address (Nat.le_trans hhigh hle) }

theorem prog (hlow : low ≤ off) (hhigh : off + data.length ≤ high) :
    WritesWithin store (store.prog block off data) block low high where
  cfg_eq := rfl
  order_eq := rfl
  blockCount_eq := rfl
  gdisk_eq := rfl
  other := fun other hne => Store.prog_bytes_of_ne hne
  before := by
    intro address hlt
    rw [Store.prog_bytes_self, Images.write_of_lt (by omega)]
  behind := by
    intro address hle
    rw [Store.prog_bytes_self, Images.write_of_le (by omega)]

theorem readable {other : Word} (hwrites : WritesWithin store store' block low high) :
    store'.Readable other ↔ store.Readable other := by
  rw [Store.Readable, Store.Readable, hwrites.blockCount_eq]

theorem read_behind {count : ℕ} (hwrites : WritesWithin store store' block low high)
    (hoff : high ≤ off) :
    Images.read (store'.bytes block) off count = Images.read (store.bytes block) off count :=
  Images.read_congr fun address hle _ => hwrites.behind address (by omega)

theorem read_before {count : ℕ} (hwrites : WritesWithin store store' block low high)
    (hoff : off + count ≤ low) :
    Images.read (store'.bytes block) off count = Images.read (store.bytes block) off count :=
  Images.read_congr fun address _ hlt => hwrites.before address (by omega)

end WritesWithin

/-- More tags behind a pending commit. -/
theorem Pending.advance (hpending : Pending store commit place tags)
    (hplain : ∀ entry ∈ more, IsPlain entry) :
    Pending (advance (store, commit) more).1 (advance (store, commit) more).2 place
      (tags ++ more) := by
  have hoff := hpending.off_eq
  have hptag := hpending.ptag_eq
  have hstart := hpending.start_le
  have hself : Images.read (Images.write (store.bytes commit.block) commit.off
      (encodeTags commit.ptag more)) commit.off (encodeTags commit.ptag more).length =
        encodeTags commit.ptag more := Images.read_write_self
  apply Pending.mk
  · simp only [Disk.advance, encodeTags_append, List.length_append, ← hptag]
    omega
  · simp only [Disk.advance, Store.prog_bytes_self, encodeTags_append, List.length_append,
      Images.read_add, ← hptag, ← hoff, hself]
    rw [Images.read_write_before (Nat.le_of_eq hoff.symm), hpending.read_eq]
  · simp only [Disk.advance, lastTag_append, hptag]
  · have hbefore : Images.read (Images.write (store.bytes commit.block) commit.off
        (encodeTags commit.ptag more)) place.start (commit.off - place.start) =
          Images.read (store.bytes commit.block) place.start (commit.off - place.start) :=
      Images.read_write_before (by omega)
    have hsplit : commit.off + (encodeTags commit.ptag more).length - place.start =
        commit.off - place.start + (encodeTags commit.ptag more).length := by omega
    have hmiddle : place.start + (commit.off - place.start) = commit.off := by omega
    simp only [Disk.advance, Store.prog_bytes_self, hsplit, Images.read_add, lfsCrc_append,
      hbefore, hmiddle, hself, hpending.crc_eq]
  · exact hstart
  · intro entry hmem
    exact (List.mem_append.mp hmem).elim (hpending.plain entry) (hplain entry)

/-! ## The CRC tag -/

theorem tagOf_closingTag (eperturb : Octet) (hspan : noff - (commit.off + 4) ≤ 0x3fe) :
    tagOf (closingTag commit noff eperturb) =
      ⟨tyCcrc + (~~~eperturb).toNat / 2 ^ 7, 0x3ff, noff - (commit.off + 4)⟩ := by
  have htype : tyCcrc + (~~~eperturb).toNat / 2 ^ 7 < 2 ^ 11 := by
    have hlt := (~~~eperturb).isLt
    simp only [tyCcrc]
    omega
  exact tagOf_mktag htype (by norm_num) (by omega)

theorem isvalid_closingTag (eperturb : Octet) (hspan : noff - (commit.off + 4) ≤ 0x3fe) :
    isvalid (closingTag commit noff eperturb) = true := by
  have htype : tyCcrc + (~~~eperturb).toNat / 2 ^ 7 < 2 ^ 11 := by
    have hlt := (~~~eperturb).isLt
    simp only [tyCcrc]
    omega
  exact isvalid_mktag htype (by norm_num) (by omega)

theorem type2_closing (eperturb : Octet) :
    (tyCcrc + (~~~eperturb).toNat / 2 ^ 7) &&& 0x780 = tyCcrc := by
  revert eperturb
  decide +kernel

theorem perturb_closing (eperturb : Octet) (word : Word) :
    perturb ((tyCcrc + (~~~eperturb).toNat / 2 ^ 7) &&& 0x0ff) word =
      word ^^^ (0x80 &&& ~~~eperturb).setWidth 32 <<< 24 := by
  have hmask : ∀ eperturb : Octet,
      BitVec.ofNat 32 ((tyCcrc + (~~~eperturb).toNat / 2 ^ 7) &&& 0x0ff &&& 1) <<< 31 =
        (0x80 &&& ~~~eperturb).setWidth 32 <<< 24 := by decide +kernel
  rw [perturb, hmask]

/-- The next valid bit is the opposite of the one in the erased byte. -/
theorem msb_closing {word : Word} (hvalid : isvalid word = true) :
    (word ^^^ (0x80 &&& ~~~eperturb).setWidth 32 <<< 24).msb = !eperturb.msb := by
  have hmask : ∀ eperturb : Octet,
      ((0x80 &&& ~~~eperturb).setWidth 32 <<< 24 : Word).msb = !eperturb.msb := by decide +kernel
  have hword : word.msb = false := by simpa [isvalid_eq] using hvalid
  rw [BitVec.msb_xor, hmask, hword, Bool.false_xor]

/-- A CRC tag completes a pending commit. -/
theorem Pending.close (hpending : Pending store commit place tags) (hlow : commit.off + 8 ≤ noff)
    (hspan : noff - (commit.off + 4) ≤ 0x3fe) (hsize : noff ≤ size) (eperturb : Octet) :
    ∃ logged, Complete size ((closeCommit (store, commit) noff eperturb).1.bytes commit.block)
        place logged ∧
      logged.next = ⟨noff, noff, (closeCommit (store, commit) noff eperturb).2.ptag⟩ ∧
      logged.entries.map Entry.tagData = tags ∧ logged.reach ≤ noff := by
  have hoff := hpending.off_eq
  have hstart := hpending.start_le
  have htag := tagOf_closingTag eperturb hspan
  have hvalid := isvalid_closingTag eperturb hspan
  have hdsize : (tagOf (closingTag commit noff eperturb)).dsize = noff - commit.off := by
    have hdelete : ¬noff - (commit.off + 4) = 0x3ff := by omega
    rw [htag, Tag.dsize, Tag.isdelete]
    simp only [beq_iff_eq, if_neg hdelete]
    omega
  simp only [closeCommit, Store.prog_bytes_self, ByteOrder.bytes_be, ByteOrder.bytes_le]
  generalize hcrc : closingCrc (store, commit) noff eperturb = crc
  generalize hbytes : Images.write (store.bytes commit.block) commit.off
    (beBytes (closingTag commit noff eperturb ^^^ commit.ptag) ++ leBytes crc) = bytes
  have hboth : Images.read bytes commit.off (beBytes (closingTag commit noff eperturb ^^^
      commit.ptag) ++ leBytes crc).length =
        beBytes (closingTag commit noff eperturb ^^^ commit.ptag) ++ leBytes crc := by
    rw [← hbytes]
    exact Images.read_write_self
  obtain ⟨hword, hsum⟩ := read_parts hboth
  rw [length_beBytes, length_leBytes] at hsum
  have hread : Images.read bytes place.off (encodeTags place.ptag tags).length =
      encodeTags place.ptag tags := by
    rw [← hbytes, Images.read_write_before (Nat.le_of_eq hoff.symm), hpending.read_eq]
  have hfits : place.off + (encodeTags place.ptag tags).length ≤ size := by omega
  obtain ⟨entries, hentries, htags⟩ := entries_of_read hpending.plain hread hfits
  rw [← hoff, ← hpending.ptag_eq] at hentries
  have hat : tagAt bytes commit.off commit.ptag = closingTag commit noff eperturb := tagAt_eq hword
  have hchecksum : checksum bytes place.start commit.off = crc := by
    have hbefore : Images.read bytes place.start (commit.off - place.start) =
        Images.read (store.bytes commit.block) place.start (commit.off - place.start) := by
      rw [← hbytes, Images.read_write_before (by omega)]
    have hsplit : commit.off + 4 - place.start = commit.off - place.start + 4 := by omega
    have hmiddle : place.start + (commit.off - place.start) = commit.off := by omega
    rw [length_beBytes] at hword
    rw [checksum, hsplit, Images.read_add, lfsCrc_append, hbefore, hmiddle, hword,
      ← hpending.crc_eq, ← hcrc, closingCrc, ByteOrder.bytes_be]
  have hcloses : Closes size bytes place.start commit.off (tagAt bytes commit.off commit.ptag) := by
    rw [hat]
    refine ⟨hvalid, ?_, ?_, by omega, ?_⟩
    · rw [hdsize]
      omega
    · rw [htag]
      exact type2_closing eperturb
    · rw [hchecksum, hsum, ofLeBytes_leBytes]
  refine ⟨_, Complete.intro hentries hcloses, ?_, htags, ?_⟩
  · have hend : commit.off + (noff - commit.off) = noff := by omega
    have hchunk : (tagOf (closingTag commit noff eperturb)).chunk =
        (tyCcrc + (~~~eperturb).toNat / 2 ^ 7) &&& 0x0ff := by
      rw [htag]
      rfl
    simp only [closed, hat, hdsize, hend, hchunk, perturb_closing]
  · exact hlow

/-- Behind a CRC tag nothing is pending yet. -/
theorem Pending.of_close (hcommit : commit.off = noff) (hptag : commit.ptag = place.ptag)
    (hplace : place.start = noff ∧ place.off = noff) (hcrc : commit.crc = 0xffffffff) :
    Pending store commit place [] := by
  obtain ⟨hstart, hoff⟩ := hplace
  apply Pending.mk
  · rw [hcommit, hoff]
    rfl
  · rfl
  · exact hptag
  · rw [hcommit, hstart, Nat.sub_self, hcrc]
    rfl
  · rw [hstart, hoff]
  · exact fun entry hmem => absurd hmem List.not_mem_nil

theorem closeCommit_writes (hlow : low ≤ commit.off) (hnoff : commit.off + 8 ≤ high) :
    WritesWithin store (closeCommit (store, commit) noff eperturb).1 commit.block low high := by
  apply WritesWithin.prog hlow
  simp only [ByteOrder.bytes_be, ByteOrder.bytes_le, List.length_append, length_beBytes,
    length_leBytes]
  omega

/-! ## The loop -/

/-- The forward CRC at the end of a commit, where a program unit is left. -/
def Store.forwardTags (store : Store) (block : Word) (stop : ℕ) : List TagData :=
  if stop ≤ store.cfg.blockSize - store.cfg.progSize then
    [(fcrcTag, leBytes (BitVec.ofNat 32 store.cfg.progSize) ++
      leBytes (lfsCrc 0xffffffff (Images.read (store.bytes block) stop store.cfg.progSize)))]
  else []

theorem isPlain_fcrc {data : List Octet} (hlength : data.length = 8) : IsPlain (fcrcTag, data) := by
  have htype : (tagOf fcrcTag).type2 ≠ tyCcrc := by decide
  have hdsize : 8 = (tagOf fcrcTag).dsize - 4 := by decide
  exact ⟨isvalid_fcrcTag, htype, hlength.trans hdsize⟩

theorem nextOff_lt {stop off : ℕ} (hlt : nextOff stop off < stop) :
    off + 8 ≤ nextOff stop off ∧ nextOff stop off + 20 ≤ stop ∧
      nextOff stop off - (off + 4) ≤ 0x3fe := by
  unfold nextOff at hlt ⊢
  dsimp only at hlt ⊢
  split at hlt <;> split <;> omega

theorem nextOff_ge {stop off : ℕ} (hge : stop ≤ nextOff stop off) (hoff : off + 4 ≤ stop) :
    nextOff stop off = stop ∧ stop - (off + 4) ≤ 0x3fe := by
  unfold nextOff at hge ⊢
  dsimp only at hge ⊢
  split at hge <;> split <;> omega

/-- The forward CRC and the perturbing byte, where a program unit is left. -/
theorem Store.forward_eq (hblock : store.Readable block) (hgeometry : Geometry store.cfg)
    (hstop : stop ≤ store.cfg.blockSize - store.cfg.progSize) :
    [(fcrcAttr store.order (store.forwardCrc block stop)).tagData store] =
        store.forwardTags block stop ∧
      store.eperturb block stop = store.bytes block stop := by
  have hpos := hgeometry.prog_pos
  have hle : store.cfg.progSize ≤ store.cfg.blockSize :=
    Nat.le_of_dvd (Nat.lt_of_lt_of_le (by norm_num) hgeometry.block_le) hgeometry.prog_dvd
  have hcrc : store.crc block stop store.cfg.progSize 0xffffffff = _ :=
    Store.crc_eq hblock (by omega)
  have hread : store.read block stop 1 = some (Images.read (store.bytes block) stop 1) :=
    Store.read_eq hblock (by omega)
  constructor
  · have hdsize : (tagOf fcrcTag).dsize - 4 = 8 := by decide
    have hclear : fcrcTag &&& 0x7fffffff = fcrcTag := clear_eq_self isvalid_fcrcTag
    simp only [LfsMattr.tagData, LfsMattr.data, fcrcAttr, LfsFcrc.bytes, Store.forwardCrc, hcrc,
      ByteOrder.bytes_le, hdsize, hclear, Store.forwardTags, if_pos hstop]
    rfl
  · rw [Store.eperturb, hread]
    rfl

/-- What the loop leaves behind a commit that was pending at `off`. -/
structure Sealed (store store' : Store) (commit commit' : LfsCommit) (place : Place)
    (tags : List TagData) (stop : ℕ) : Prop where
  writes : WritesWithin store store' commit.block commit.off stop
  block_eq : commit'.block = commit.block
  off_eq : commit'.off = stop
  chain : ∃ commits, commits ≠ [] ∧
    Chain store.cfg.blockSize (store'.bytes commit.block) place commits ∧
    (commits.flatMap LogCommit.entries).map Entry.tagData =
      tags ++ store.forwardTags commit.block stop ∧
    endFrom place commits = ⟨stop, stop, commit'.ptag⟩ ∧
    ∀ logged ∈ commits, logged.reach ≤ stop
  ccrc : (tagOf commit'.ptag).type2 = tyCcrc
  perturbed : stop ≤ store.cfg.blockSize - store.cfg.progSize →
    commit'.ptag.msb = !(store.bytes commit.block stop).msb

theorem commitcrcLoop_done {first : Option (ℕ × Word)} (hdone : ¬state.2.off < stop) :
    commitcrcLoop stop fuel state first = .ok (state, first) := by
  obtain ⟨store, commit⟩ := state
  cases fuel with
  | zero => rfl
  | succ fuel =>
      rw [commitcrcLoop]
      exact if_neg hdone

/-- The last CRC tag seals the commit. -/
theorem Pending.sealed (hpending : Pending store commit place tags)
    (hlow : commit.off + 8 ≤ stop) (hspan : stop - (commit.off + 4) ≤ 0x3fe)
    (hstop : stop ≤ store.cfg.blockSize) (eperturb : Octet)
    (hperturb : stop ≤ store.cfg.blockSize - store.cfg.progSize →
      eperturb = store.bytes commit.block stop) :
    ∃ logged, Chain store.cfg.blockSize
        ((closeCommit (store, commit) stop eperturb).1.bytes commit.block) place [logged] ∧
      ([logged].flatMap LogCommit.entries).map Entry.tagData = tags ∧
      endFrom place [logged] =
        ⟨stop, stop, (closeCommit (store, commit) stop eperturb).2.ptag⟩ ∧
      (∀ other ∈ [logged], other.reach ≤ stop) ∧
      (tagOf (closeCommit (store, commit) stop eperturb).2.ptag).type2 = tyCcrc ∧
      (stop ≤ store.cfg.blockSize - store.cfg.progSize →
        (closeCommit (store, commit) stop eperturb).2.ptag.msb =
          !(store.bytes commit.block stop).msb) := by
  obtain ⟨logged, hcomplete, hnext, htags, hreach⟩ := hpending.close hlow hspan hstop eperturb
  refine ⟨logged, Chain.cons hcomplete (Chain.nil _), ?_, hnext, ?_, ?_, ?_⟩
  · rw [List.flatMap_singleton, htags]
  · intro other hmem
    rw [List.mem_singleton.mp hmem]
    exact hreach
  · simp only [closeCommit]
    rw [← perturb_closing, tagOf_perturb, tagOf_closingTag eperturb hspan]
    exact type2_closing eperturb
  · intro hunit
    rw [← hperturb hunit]
    exact msb_closing (isvalid_closingTag eperturb hspan)

/-- The forward CRC of a pending commit. -/
theorem Pending.forward {middle : Store × LfsCommit} (hpending : Pending store commit place tags)
    (hblock : store.Readable commit.block) (hgeometry : Geometry store.cfg)
    (hunit : stop ≤ store.cfg.blockSize - store.cfg.progSize)
    (hattr : lfsDirCommitattr (store, commit)
      (fcrcAttr store.order (store.forwardCrc commit.block stop)) = .ok middle) :
    Pending middle.1 middle.2 place (tags ++ store.forwardTags commit.block stop) ∧
      middle.2.off = commit.off + 12 ∧ middle.2.block = commit.block ∧
      WritesWithin store middle.1 commit.block commit.off (commit.off + 12) := by
  obtain ⟨htags, -⟩ := Store.forward_eq hblock hgeometry hunit
  obtain ⟨hmiddle, -, hlength⟩ := lfsDirCommitattr_ok hattr trivial
  have hdsize : (tagOf fcrcTag).dsize - 4 = 8 := by decide
  have hdata : ((fcrcAttr store.order (store.forwardCrc commit.block stop)).data
      store).length = 8 :=
    hlength.trans hdsize
  have hencode : (encodeTags commit.ptag [(fcrcAttr store.order
      (store.forwardCrc commit.block stop)).tagData store]).length = 12 := by
    simp only [LfsMattr.tagData, encodeTags, List.length_append, length_beBytes, hdata,
      List.length_nil]
  have hplain : ∀ entry ∈ [(fcrcAttr store.order
      (store.forwardCrc commit.block stop)).tagData store], IsPlain entry := by
    intro entry hmem
    rw [List.mem_singleton.mp hmem, LfsMattr.tagData]
    have hclear : (fcrcAttr store.order (store.forwardCrc commit.block stop)).tag &&& 0x7fffffff =
        fcrcTag := clear_eq_self isvalid_fcrcTag
    rw [hclear]
    exact isPlain_fcrc hdata
  have hpending' := hpending.advance hplain
  rw [htags] at hpending'
  rw [hmiddle]
  simp only [htags] at hencode ⊢
  refine ⟨hpending', ?_, rfl, ?_⟩
  · exact congrArg (commit.off + ·) hencode
  · apply WritesWithin.prog (le_refl _)
    rw [hencode]

/-- The CRC tags of a commit. -/
theorem commitcrcLoop_sealed {first first' : Option (ℕ × Word)} (hgeometry : Geometry store.cfg)
    (hblock : store.Readable commit.block)
    (hloop : commitcrcLoop stop fuel (store, commit) first = .ok ((store', commit'), first'))
    (hpending : Pending store commit place tags)
    (hroom : commit.off + 20 ≤ stop ∨ commit.off + 8 ≤ stop ∧ stop = store.cfg.blockSize)
    (hstop : stop ≤ store.cfg.blockSize) (hfuel : stop - commit.off < fuel) :
    Sealed store store' commit commit' place tags stop := by
  induction fuel generalizing store commit place tags first with
  | zero => omega
  | succ fuel ih =>
      have hpos := hgeometry.prog_pos
      have hlt : commit.off < stop := by omega
      rw [commitcrcLoop] at hloop
      simp only [if_pos hlt] at hloop
      by_cases hforward : stop ≤ nextOff stop commit.off ∧
          nextOff stop commit.off ≤ store.cfg.blockSize - store.cfg.progSize
      · -- the last CRC tag, with a program unit behind it
        obtain ⟨hnoff, hspan⟩ := nextOff_ge hforward.1 (by omega)
        rw [if_pos hforward, hnoff] at hloop
        have hunit : stop ≤ store.cfg.blockSize - store.cfg.progSize := by
          rw [← hnoff]
          exact hforward.2
        have hroom' : commit.off + 20 ≤ stop := by omega
        obtain ⟨htags, heperturb⟩ := Store.forward_eq hblock hgeometry hunit
        cases hattr : lfsDirCommitattr (store, commit)
            (fcrcAttr store.order (store.forwardCrc commit.block stop)) with
        | error e =>
            rw [hattr] at hloop
            cases hloop
        | ok middle =>
            rw [hattr] at hloop
            simp only at hloop
            obtain ⟨hmiddle, hoff, hblock_eq, hshort⟩ :=
              hpending.forward hblock hgeometry hunit hattr
            have hwrites : WritesWithin store middle.1 commit.block commit.off stop :=
              hshort.mono (le_refl _) (by omega)
            have hbehind : middle.1.bytes commit.block stop = store.bytes commit.block stop :=
              hwrites.behind stop (le_refl _)
            have hstop' : stop ≤ middle.1.cfg.blockSize := by
              rw [hwrites.cfg_eq]
              exact hstop
            have hperturb : stop ≤ middle.1.cfg.blockSize - middle.1.cfg.progSize →
                store.eperturb commit.block stop = middle.1.bytes middle.2.block stop := by
              intro hunit'
              rw [hblock_eq, hbehind]
              exact heperturb
            obtain ⟨logged, hchain, hentries, hend, hreach, hccrc, hmsb⟩ :=
              hmiddle.sealed (by omega) (by omega) hstop' (store.eperturb commit.block stop)
                  hperturb
            have hdone : ¬(closeCommit middle stop (store.eperturb commit.block stop)).2.off <
                stop := lt_irrefl _
            rw [commitcrcLoop_done hdone] at hloop
            obtain ⟨rfl, rfl⟩ : store' =
                (closeCommit middle stop (store.eperturb commit.block stop)).1 ∧
              commit' = (closeCommit middle stop (store.eperturb commit.block stop)).2 := by
              have hpair := congrArg Prod.fst (Except.ok.inj hloop)
              exact ⟨(congrArg Prod.fst hpair).symm, (congrArg Prod.snd hpair).symm⟩
            have hclose : WritesWithin middle.1
                (closeCommit middle stop (store.eperturb commit.block stop)).1 commit.block
                  commit.off stop := by
              rw [← hblock_eq]
              exact closeCommit_writes (by omega) (by omega)
            rw [hblock_eq, hwrites.cfg_eq] at hchain
            rw [hblock_eq, hwrites.cfg_eq, hbehind] at hmsb
            exact {
              writes := hwrites.trans hclose
              block_eq := hblock_eq
              off_eq := rfl
              chain := ⟨[logged], List.cons_ne_nil _ _, hchain, hentries, hend, hreach⟩
              ccrc := hccrc
              perturbed := hmsb }
      · rw [if_neg hforward] at hloop
        by_cases hnoff : nextOff stop commit.off < stop
        · -- a CRC tag that only spans bytes
          obtain ⟨hlow, hhigh, hspan⟩ := nextOff_lt hnoff
          obtain ⟨logged, hcomplete, hnext, htags, hreach⟩ :=
            hpending.close hlow hspan (Nat.le_trans (Nat.le_of_lt hnoff) hstop) 0xff
          have hwrites : WritesWithin store
              (closeCommit (store, commit) (nextOff stop commit.off) 0xff).1 commit.block
                commit.off stop := closeCommit_writes (le_refl _) (by omega)
          have hpending' : Pending (closeCommit (store, commit) (nextOff stop commit.off) 0xff).1
              (closeCommit (store, commit) (nextOff stop commit.off) 0xff).2 logged.next [] := by
            apply Pending.of_close rfl
            · rw [hnext]
            · rw [hnext]
              exact ⟨rfl, rfl⟩
            · rfl
          have hgeometry' : Geometry
              (closeCommit (store, commit) (nextOff stop commit.off) 0xff).1.cfg := hgeometry
          have hless : stop - nextOff stop commit.off < fuel := by omega
          have hsealed : Sealed (closeCommit (store, commit) (nextOff stop commit.off) 0xff).1
              store' (closeCommit (store, commit) (nextOff stop commit.off) 0xff).2 commit'
                logged.next [] stop :=
            ih hgeometry' (hwrites.readable.mpr hblock) hloop hpending' (Or.inl hhigh) hstop hless
          obtain ⟨commits, hne, hchain, hentries, hend, hreaches⟩ := hsealed.chain
          have hforwardTags : Store.forwardTags
              (closeCommit (store, commit) (nextOff stop commit.off) 0xff).1 commit.block stop =
                store.forwardTags commit.block stop := by
            rw [Store.forwardTags, Store.forwardTags, hwrites.cfg_eq,
              hwrites.read_behind (le_refl _)]
          have hlater : WritesWithin
              (closeCommit (store, commit) (nextOff stop commit.off) 0xff).1 store' commit.block
                (nextOff stop commit.off) stop := hsealed.writes
          exact {
            writes := hwrites.trans (hlater.mono (by omega) (le_refl _))
            block_eq := hsealed.block_eq
            off_eq := hsealed.off_eq
            chain := by
              refine ⟨logged :: commits, List.cons_ne_nil _ _, ?_, ?_, hend, ?_⟩
              · apply Chain.cons
                · exact hcomplete.congr fun address hlt =>
                    (hlater.before address (by omega)).symm
                · exact hchain
              · have hentries' : (commits.flatMap LogCommit.entries).map Entry.tagData =
                    [] ++ Store.forwardTags
                      (closeCommit (store, commit) (nextOff stop commit.off) 0xff).1
                        commit.block stop := hentries
                rw [List.flatMap_cons, List.map_append, htags, hentries', hforwardTags,
                  List.nil_append]
              · intro other hmem
                obtain rfl | hmem' := List.mem_cons.mp hmem
                · omega
                · exact hreaches other hmem'
            ccrc := hsealed.ccrc
            perturbed := by
              intro hunit
              have hmsb := hsealed.perturbed (by rw [hwrites.cfg_eq]; exact hunit)
              rw [hmsb]
              exact congrArg (fun byte : Octet => !byte.msb) (hwrites.behind stop (le_refl _)) }
        · -- the last CRC tag, at the end of the block
          obtain ⟨hnoff', hspan⟩ := nextOff_ge (Nat.not_lt.mp hnoff) (by omega)
          rw [hnoff'] at hloop hforward
          have hfull : ¬stop ≤ store.cfg.blockSize - store.cfg.progSize :=
            fun hunit => hforward ⟨le_refl _, hunit⟩
          obtain ⟨logged, hchain, hentries, hend, hreach, hccrc, hmsb⟩ :=
            hpending.sealed (by omega) hspan hstop 0xff
              (fun hunit => absurd hunit hfull)
          have hdone : ¬(closeCommit (store, commit) stop 0xff).2.off < stop := lt_irrefl _
          rw [commitcrcLoop_done hdone] at hloop
          obtain ⟨rfl, rfl⟩ : store' = (closeCommit (store, commit) stop 0xff).1 ∧
              commit' = (closeCommit (store, commit) stop 0xff).2 := by
            have hpair := congrArg Prod.fst (Except.ok.inj hloop)
            exact ⟨(congrArg Prod.fst hpair).symm, (congrArg Prod.snd hpair).symm⟩
          exact {
            writes := closeCommit_writes (le_refl _) (by omega)
            block_eq := rfl
            off_eq := rfl
            chain := by
              refine ⟨[logged], List.cons_ne_nil _ _, hchain, ?_, hend, hreach⟩
              rw [hentries, Store.forwardTags, if_neg hfull, List.append_nil]
            ccrc := hccrc
            perturbed := hmsb }

/-! ## The whole checksum -/

/-- The check reads the first checksum. -/
theorem checkCommit_ok {off1 : ℕ} {crc1 : Word}
    (hcheck : checkCommit store commit off1 crc1 = .ok ()) :
    off1 + 4 ≤ store.cfg.blockSize ∧
      (store.crc commit.block commit.start (off1 - commit.start) 0xffffffff).1 = crc1 := by
  unfold checkCommit at hcheck
  split at hcheck
  · cases hcheck
  · rename_i crc hfirst
    split at hcheck
    · cases hcheck
    · rename_i hcrc
      split at hcheck
      · cases hcheck
      · rename_i crc' hsecond
        constructor
        · by_contra hsize
          have hnone : store.read commit.block off1 4 = none :=
            Store.read_eq_none (Nat.not_le.mp hsize)
          have hfail : store.crc commit.block off1 4 crc = (crc, false) := by
            rw [Store.crc, Store.crcGo, if_neg (by norm_num)]
            simp only [show min 4 8 = 4 from rfl, hnone]
          rw [hfail] at hsecond
          cases hsecond
        · rw [hfirst]
          exact not_not.mp hcrc

/-- Where a commit that grew to `off` ends. -/
def crcEnd (cfg : Config) (off : ℕ) : ℕ :=
  lfsAlignup (min (off + 20) cfg.blockSize) cfg.progSize

/-- The checksum only fits before the end of the block. -/
theorem lfsDirCommitcrc_room (hgeometry : Geometry store.cfg)
    (hcommit : lfsDirCommitcrc (store, commit) = .ok state) :
    commit.off + 8 ≤ store.cfg.blockSize := by
  by_contra hroom
  have hpos := hgeometry.prog_pos
  have hend : lfsAlignup (min (commit.off + 20) store.cfg.blockSize) store.cfg.progSize =
      store.cfg.blockSize := by
    have hmin : min (commit.off + 20) store.cfg.blockSize = store.cfg.blockSize := by omega
    rw [hmin]
    exact Nat.le_antisymm (lfsAlignup_le hpos (le_refl _) hgeometry.prog_dvd)
      (le_lfsAlignup hpos)
  simp only [lfsDirCommitcrc, hend] at hcommit
  by_cases hlt : commit.off < store.cfg.blockSize
  · have hnoff : store.cfg.blockSize ≤ nextOff store.cfg.blockSize commit.off := by
      unfold nextOff
      dsimp only
      split <;> omega
    have hforward : ¬(store.cfg.blockSize ≤ nextOff store.cfg.blockSize commit.off ∧
        nextOff store.cfg.blockSize commit.off ≤ store.cfg.blockSize - store.cfg.progSize) := by
      omega
    have hdone : ¬(closeCommit (store, commit) (nextOff store.cfg.blockSize commit.off)
        0xff).2.off < store.cfg.blockSize := Nat.not_lt.mpr hnoff
    rw [commitcrcLoop] at hcommit
    simp only [if_pos hlt, if_neg hforward, commitcrcLoop_done hdone, Option.none_or,
      Option.getD_some] at hcommit
    split at hcommit
    · cases hcommit
    · rename_i hcheck
      have hsize := (checkCommit_ok hcheck).1
      simp only [closeCommit, Store.prog_cfg] at hsize
      omega
  · rw [commitcrcLoop_done hlt] at hcommit
    simp only [Option.getD_none] at hcommit
    split at hcommit
    · cases hcommit
    · rename_i hcheck
      have hcrc := (checkCommit_ok hcheck).2
      have hempty : (store.crc commit.block commit.start 0 0xffffffff).1 = 0xffffffff := rfl
      have hne : (0xffffffff : Word) ≠ 0 := by decide
      rw [Nat.zero_sub, hempty] at hcrc
      exact absurd hcrc hne

/-- `lfs_dir_commitcrc` seals what is pending. -/
theorem lfsDirCommitcrc_sealed (hgeometry : Geometry store.cfg)
    (hblock : store.Readable commit.block)
    (hcommit : lfsDirCommitcrc (store, commit) = .ok (store', commit'))
    (hpending : Pending store commit place tags) :
    Sealed store store' commit commit' place tags (crcEnd store.cfg commit.off) := by
  have hpos := hgeometry.prog_pos
  have hroom := lfsDirCommitcrc_room hgeometry hcommit
  have hle : min (commit.off + 20) store.cfg.blockSize ≤ crcEnd store.cfg commit.off :=
    le_lfsAlignup hpos
  have hstop : crcEnd store.cfg commit.off ≤ store.cfg.blockSize :=
    lfsAlignup_le hpos (min_le_right _ _) hgeometry.prog_dvd
  have hend : lfsAlignup (min (commit.off + 20) store.cfg.blockSize) store.cfg.progSize =
      crcEnd store.cfg commit.off := rfl
  simp only [lfsDirCommitcrc, hend] at hcommit
  cases hloop : commitcrcLoop (crcEnd store.cfg commit.off)
      (crcEnd store.cfg commit.off - commit.off + 1) (store, commit) none with
  | error e =>
      rw [hloop] at hcommit
      cases hcommit
  | ok looped =>
      obtain ⟨⟨looped, written⟩, first⟩ := looped
      rw [hloop] at hcommit
      simp only at hcommit
      split at hcommit
      · cases hcommit
      · obtain ⟨rfl, rfl⟩ : looped = store' ∧ written = commit' := by
          cases hcommit
          exact ⟨rfl, rfl⟩
        exact commitcrcLoop_sealed hgeometry hblock hloop hpending (by omega) hstop (by omega)

end Littlefs.Disk
