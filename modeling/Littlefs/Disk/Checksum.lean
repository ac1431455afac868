import Littlefs.Disk.ScanBounds
import Littlefs.Disk.Rereading
import Littlefs.Lib.Crc

/-!
# What the checksum detects

`lfs_crc` takes four bits at a time from a table of sixteen words; it is the CRC-32
of the buffer, bit by bit and without the final inversion.  The forward CRC that a
fetch compares is such a checksum of the bytes behind the last commit.
-/

namespace Littlefs.Disk

open Words

/-- The polynomial of CRC-32, reflected. -/
def crcPoly : Word := (0x04c11db7 : Word).reverse

/-- The bits of a buffer in the order in which a reflected CRC takes them. -/
def bufferBits (buffer : List Octet) : List Bool := buffer.flatMap Crc.bitsOf

/-! ## The table -/

theorem crcPoly_eq : crcPoly = 0xedb88320 := by decide +kernel

theorem msb_crcPoly : crcPoly.msb = true := by
  rw [crcPoly_eq]
  decide

theorem rtable_eq : ∀ index : BitVec 4,
    rtable.getD index.toNat 0 = Crc.steps crcPoly 4 (index.setWidth 32) := by
  rw [crcPoly_eq]
  decide +kernel

/-- The lower four bits of a word. -/
theorem and_nibble {w : ℕ} (word : BitVec (w + 4)) :
    word &&& 0xf = (word.setWidth 4).setWidth (w + 4) := by
  apply BitVec.eq_of_toNat_eq
  have hmask : (0xf : BitVec (w + 4)).toNat = 2 ^ 4 - 1 := by
    have hlt : 15 < 2 ^ (w + 4) := by
      have hpos : 0 < 2 ^ w := Nat.two_pow_pos w
      rw [Nat.pow_add]
      omega
    exact Nat.mod_eq_of_lt hlt
  rw [BitVec.toNat_and, hmask, Nat.and_two_pow_sub_one_eq_mod, BitVec.toNat_setWidth,
    BitVec.toNat_setWidth]
  have hlt : word.toNat % 2 ^ 4 < 2 ^ (w + 4) :=
    Nat.lt_of_lt_of_le (Nat.mod_lt _ (by norm_num)) (Nat.pow_le_pow_right (by norm_num) (by omega))
  rw [Nat.mod_eq_of_lt hlt]

theorem split_nibble (word : Word) :
    word = (word.setWidth 4).setWidth 32 ^^^ (word >>> 4) <<< 4 := by
  apply BitVec.eq_of_getLsbD_eq
  intro index hindex
  rw [BitVec.getLsbD_xor, BitVec.getLsbD_setWidth, BitVec.getLsbD_setWidth,
    BitVec.getLsbD_shiftLeft, BitVec.getLsbD_ushiftRight]
  by_cases hlow : index < 4
  · simp [hlow, hindex]
  · have hback : 4 + (index - 4) = index := by omega
    simp [hlow, hindex, hback]

theorem toNat_nibble (word : Word) : (word &&& 0xf).toNat = (word.setWidth 4).toNat := by
  have hand : word &&& 0xf = (word.setWidth 4).setWidth 32 := and_nibble (w := 28) word
  rw [hand, BitVec.toNat_setWidth, Nat.mod_eq_of_lt]
  exact Nat.lt_of_lt_of_le (word.setWidth 4).isLt (by norm_num)

/-- Four places down: the lower bits go through the table, the others are moved. -/
theorem steps_nibble (word : Word) :
    Crc.steps crcPoly 4 word = word >>> 4 ^^^ rtable.getD (word &&& 0xf).toNat 0 := by
  have hhigh : Crc.steps crcPoly 4 ((word >>> 4) <<< 4) = word >>> 4 := by
    apply Crc.steps_shiftLeft
    intro index hindex
    rw [BitVec.getLsbD_ushiftRight]
    exact BitVec.getLsbD_of_ge word _ (by omega)
  rw [toNat_nibble, rtable_eq]
  nth_rewrite 1 [split_nibble word]
  rw [Crc.steps_xor, hhigh, BitVec.xor_comm]

/-- Half a turn of `lfs_crc` takes the lower four bits of the byte. -/
theorem crcNibble_eq (crc : Word) (byte : Octet) :
    crcNibble crc byte = Crc.feed crcPoly crc (Crc.bitsOf (byte.setWidth 4)) := by
  have hwidth : (Crc.bitsOf (byte.setWidth 4)).length ≤ 32 := by
    rw [Crc.length_bitsOf]
    norm_num
  have hshift : ((byte.setWidth 4).setWidth 32 : Word) >>> 4 = 0 := by
    apply BitVec.eq_of_getLsbD_eq
    intro index hindex
    simp
  have hlow : (crc ^^^ (byte.setWidth 4).setWidth 32) &&& 0xf =
      (crc ^^^ byte.setWidth 32) &&& 0xf := by
    have hand : ∀ word : Word, word &&& 0xf = (word.setWidth 4).setWidth 32 :=
      and_nibble (w := 28)
    rw [hand, hand, BitVec.setWidth_xor, BitVec.setWidth_xor]
    apply BitVec.eq_of_getLsbD_eq
    intro index hindex
    simp [hindex]
  rw [Crc.feed_eq _ _ hwidth, Crc.length_bitsOf, Crc.wordOf_bitsOf _ (by norm_num), steps_nibble,
    BitVec.ushiftRight_xor_distrib, hshift, hlow, crcNibble]
  exact congrArg (· ^^^ _) BitVec.xor_zero.symm

theorem bitsOf_octet (byte : Octet) :
    Crc.bitsOf byte = Crc.bitsOf (byte.setWidth 4) ++ Crc.bitsOf ((byte >>> 4).setWidth 4) := by
  simp [Crc.bitsOf, List.range_succ]

/-- `lfs_crc` is the CRC of the bits of the buffer. -/
theorem lfsCrc_eq_feed (crc : Word) (buffer : List Octet) :
    lfsCrc crc buffer = Crc.feed crcPoly crc (bufferBits buffer) := by
  induction buffer generalizing crc with
  | nil => rfl
  | cons byte buffer ih =>
      have hbits : bufferBits (byte :: buffer) = Crc.bitsOf (byte.setWidth 4) ++
          (Crc.bitsOf ((byte >>> 4).setWidth 4) ++ bufferBits buffer) := by
        rw [← List.append_assoc, ← bitsOf_octet]
        rfl
      rw [hbits, Crc.feed_append, Crc.feed_append, ← crcNibble_eq, ← crcNibble_eq, ← ih]
      rfl

/-! ## A checksum over itself -/

theorem bufferBits_leBytes (word : Word) : bufferBits (leBytes word) = Crc.bitsOf word := by
  simp [bufferBits, leBytes, Crc.bitsOf, List.range_succ]

theorem lfsCrc_leBytes (crc : Word) : lfsCrc crc (leBytes crc) = 0 := by
  rw [lfsCrc_eq_feed, bufferBits_leBytes, Crc.feed_eq, Crc.length_bitsOf,
    Crc.wordOf_bitsOf _ (le_refl 32), BitVec.setWidth_eq, BitVec.xor_self]
  · exact Crc.steps_zero _ _
  · rw [Crc.length_bitsOf]

/-! ## Short damage -/

/-- Two buffers of one length that differ in at most four consecutive bytes. -/
structure DifferShortly (left right : List Octet) : Prop where
  length_eq : left.length = right.length
  ne : left ≠ right
  window : ∃ start, ∀ index, left[index]? ≠ right[index]? → start ≤ index ∧ index < start + 4

theorem length_bufferBits (buffer : List Octet) :
    (bufferBits buffer).length = 8 * buffer.length := by
  induction buffer with
  | nil => rfl
  | cons byte buffer ih =>
      have hbits : bufferBits (byte :: buffer) = Crc.bitsOf byte ++ bufferBits buffer := rfl
      rw [hbits, List.length_append, Crc.length_bitsOf, ih, List.length_cons]
      omega

theorem bufferBits_injective {left right : List Octet} (hlength : left.length = right.length)
    (hbits : bufferBits left = bufferBits right) : left = right := by
  induction left generalizing right with
  | nil => exact (List.length_eq_zero_iff.mp hlength.symm).symm
  | cons byte left ih =>
      cases right with
      | nil => cases hlength
      | cons byte' right =>
          change Crc.bitsOf byte ++ bufferBits left = Crc.bitsOf byte' ++ bufferBits right at hbits
          have hsame : (Crc.bitsOf byte).length = (Crc.bitsOf byte').length := by
            rw [Crc.length_bitsOf, Crc.length_bitsOf]
          obtain ⟨hfirst, hrest⟩ := List.append_inj hbits hsame
          rw [Crc.bitsOf_injective hfirst, ih (Nat.succ.inj hlength) hrest]

theorem bufferBits_append (front back : List Octet) :
    bufferBits (front ++ back) = bufferBits front ++ bufferBits back :=
  List.flatMap_append

/-- Buffers that differ shortly have one front, one back, and windows of four bytes or
less between them. -/
theorem DifferShortly.split {left right : List Octet} (hdiffer : DifferShortly left right) :
    ∃ front window window' back, left = front ++ window ++ back ∧
      right = front ++ window' ++ back ∧ window ≠ window' ∧ window'.length = window.length ∧
      window.length ≤ 4 := by
  obtain ⟨hlength, hne, start, hwindow⟩ := hdiffer
  have hsplit : ∀ buffer : List Octet,
      buffer = buffer.take start ++ (buffer.drop start).take 4 ++ buffer.drop (start + 4) := by
    intro buffer
    rw [List.append_assoc, ← List.drop_drop, List.take_append_drop, List.take_append_drop]
  have hsame : ∀ index, ¬(start ≤ index ∧ index < start + 4) → left[index]? = right[index]? :=
    fun index hout => not_not.mp fun hbyte => hout (hwindow index hbyte)
  have hfront : left.take start = right.take start := by
    apply List.ext_getElem?
    intro index
    rw [List.getElem?_take, List.getElem?_take]
    split
    · exact hsame index (by omega)
    · rfl
  have hback : left.drop (start + 4) = right.drop (start + 4) := by
    apply List.ext_getElem?
    intro index
    rw [List.getElem?_drop, List.getElem?_drop]
    exact hsame _ (by omega)
  refine ⟨left.take start, (left.drop start).take 4, (right.drop start).take 4,
    left.drop (start + 4), hsplit left, ?_, ?_, ?_, ?_⟩
  · rw [hfront, hback]
    exact hsplit right
  · intro hmiddle
    apply hne
    rw [hsplit left, hsplit right, hfront, hback, hmiddle]
  · simp only [List.length_take, List.length_drop, hlength]
  · exact List.length_take_le _ _

theorem lfsCrc_ne {left right : List Octet} (crc : Word) (hdiffer : DifferShortly left right) :
    lfsCrc crc left ≠ lfsCrc crc right := by
  obtain ⟨front, window, window', back, rfl, rfl, hne, hlength, hle⟩ := hdiffer.split
  simp only [lfsCrc_eq_feed, bufferBits_append]
  apply Crc.feed_ne_of_window msb_crcPoly
  · exact fun hbits => hne (bufferBits_injective hlength.symm hbits)
  · rw [length_bufferBits]
    omega
  · rw [length_bufferBits, length_bufferBits, hlength]

/-! ## Where the scan of a block ends -/

variable {store : Store} {query : Query} {pass : Pass} {place : Place} {bytes : ℕ → Octet}
  {off fuel : ℕ} {ptag : Word} {entries : List Entry} {pair front : WordPair} {fetched : Fetched}
  {lookup : Lookup}

theorem Store.turn_stop (hturn : store.turn query pass = .stop true) :
    (tagOf pass.ptag).type2 = tyCcrc := by
  rw [Store.turn] at hturn
  simp only at hturn
  split at hturn
  · cases hturn
  · split at hturn
    · exact beq_iff_eq.mp (Turn.stop.inj hturn)
    · split at hturn
      · cases hturn
      · split at hturn
        · split at hturn
          · cases hturn
          · split at hturn
            · cases hturn
            · cases hturn
        · split at hturn
          · cases hturn
          · split at hturn
            · cases hturn
            · split at hturn
              · cases hturn
              · cases hturn

/-- Behind a tag of a commit that is not complete nothing counts as erased. -/
theorem Store.At.flag_rest (hnone : nextCommit store.cfg.blockSize bytes place = none)
    (hentries : Entries store.cfg.blockSize bytes place.off place.ptag entries off ptag)
    (hptag : (tagOf ptag).type2 ≠ tyCcrc) (hplace : store.At pass ⟨place.start, off, ptag⟩)
    (hbytes : store.bytes pass.dir.pair.1 = bytes) : (store.scan query fuel pass).2 = false := by
  induction fuel generalizing pass entries off ptag with
  | zero => rfl
  | succ fuel ih =>
      cases hturn : store.turn query pass with
      | stop maybeerased =>
          rw [Store.scan, hturn]
          cases maybeerased with
          | false => rfl
          | true =>
              have htype := Store.turn_stop hturn
              rw [hplace.ptag_eq] at htype
              exact absurd htype hptag
      | next pass' =>
          rw [Store.scan_next hturn]
          obtain hcloses | ⟨hentry, hplace', hpublished⟩ := hplace.next_cases hturn
          · rw [hbytes] at hcloses
            exact absurd (Complete.intro hentries hcloses) (nextCommit_eq_none_iff.mp hnone _)
          · rw [hbytes] at hentry hplace'
            have hdir : pass'.dir = pass.dir := congrArg Prod.fst hpublished
            exact ih (hentries.snoc hentry) hentry.2.2 hplace' (by rw [hdir, hbytes])

/-- Bytes that may be erased follow the last complete commit at once. -/
theorem Store.At.rest_of_flag (hnone : nextCommit store.cfg.blockSize bytes place = none)
    (hplace : store.At pass place) (hbytes : store.bytes pass.dir.pair.1 = bytes)
    (hflag : (store.scan query fuel pass).2 = true) : (store.scan query fuel pass).1 = pass := by
  cases fuel with
  | zero => rfl
  | succ fuel =>
      cases hturn : store.turn query pass with
      | stop maybeerased => rw [Store.scan, hturn]
      | next pass' =>
          rw [Store.scan_next hturn] at hflag
          obtain hcloses | ⟨hentry, hplace', hpublished⟩ := hplace.next_cases hturn
          · rw [hbytes] at hcloses
            exact absurd (Complete.intro (Entries.nil _ _) hcloses)
              (nextCommit_eq_none_iff.mp hnone _)
          · rw [hbytes] at hentry hplace'
            have hdir : pass'.dir = pass.dir := congrArg Prod.fst hpublished
            have hfalse : (store.scan query fuel pass').2 = false := by
              apply Store.At.flag_rest hnone ((Entries.nil _ _).snoc hentry) hentry.2.2 hplace'
              rw [hdir, hbytes]
            rw [hflag] at hfalse
            cases hfalse

/-- The forward CRC that the complete commits of a block leave. -/
def Store.forward (store : Store) (block : Word) : Option LfsFcrc :=
  ((store.log block).flatMap LogCommit.entries).foldl (Entry.fcrc store.order) none

theorem believed_forward : (store.believed lookup pair).fcrc = store.forward pair.1 := by
  rw [Store.believed, foldl_commit_fcrc]
  rfl

/-- A scan that reports erased bytes has taken up the complete commits and no more. -/
theorem Store.scanFront_of_flag (hblock : store.Readable pair.1) (hsize : 4 ≤ store.cfg.blockSize)
    (hclean : lookup.Clean ((store.log pair.1).flatMap LogCommit.entries))
    (hflag : (store.scanFront lookup.query pair).2 = true) :
    (store.scanFront lookup.query pair).1.belief = store.believed lookup pair := by
  obtain ⟨fuel, pass, hscan, -, hplace, hbelief⟩ := Store.scanFront_eq pair hblock hsize hclean
  have hpair : pass.dir.pair = pair := by
    calc pass.dir.pair = pass.belief.dir.pair := rfl
      _ = pair := by rw [hbelief, believed_pair]
  rw [hscan] at hflag ⊢
  have hrest : (store.scan lookup.query (fuel + 1) pass).1 = pass := by
    apply Store.At.rest_of_flag nextCommit_completeCommits hplace ?_ hflag
    rw [hpair]
  rw [hrest, hbelief]

theorem Store.checkErased_iff {maybeerased : Bool} :
    store.checkErased pass maybeerased = true ↔ maybeerased = true ∧
      ∃ fcrc, pass.fcrc = some fcrc ∧ pass.dir.off % store.cfg.progSize = 0 ∧
        (store.crc pass.dir.pair.1 pass.dir.off fcrc.size.toNat 0xffffffff).1 = fcrc.crc := by
  rw [Store.checkErased]
  cases pass.fcrc with
  | none => simp
  | some fcrc => simp [and_assoc]

theorem Store.conclude_dir (store : Store) (pass : Pass) (maybeerased : Bool) :
    (store.conclude pass maybeerased).dir =
      { pass.dir with erased := store.checkErased pass maybeerased } := rfl

/-- What a fetch that reports erased bytes has checked. -/
theorem Store.checked_of_erased (hsize : 4 ≤ store.cfg.blockSize) (hrange : store.InRange pair)
    (hfetch : store.fetchmatch Query.fetch pair = some fetched)
    (herased : fetched.dir.erased = true) :
    ∃ fcrc, store.forward fetched.dir.pair.1 = some fcrc ∧
      fetched.dir.off % store.cfg.progSize = 0 ∧
      (store.crc fetched.dir.pair.1 fetched.dir.off fcrc.size.toNat 0xffffffff).1 = fcrc.crc := by
  have hclean : ∀ front, store.chosen pair = some front →
      Lookup.fetch.Clean ((store.log front.1).flatMap LogCommit.entries) :=
    fun front _ => Lookup.fetch_clean chain_completeCommits
  obtain ⟨hnone, -⟩ | ⟨front, hchosen, hrange', hsome⟩ :=
    Store.fetchmatch_cases hsize hrange hclean
  · have hnone' : store.fetchmatch Query.fetch pair = none := hnone
    rw [hfetch] at hnone'
    cases hnone'
  · obtain ⟨pass, maybeerased, hscan⟩ : ∃ pass maybeerased,
        store.scanFront Lookup.fetch.query front = (pass, maybeerased) := ⟨_, _, rfl⟩
    have hbelief := Store.scanFront_of_flag hrange'.1 hsize (hclean front hchosen)
    rw [hscan] at hsome hbelief
    obtain rfl : fetched = store.conclude pass maybeerased :=
      Option.some.inj (hfetch.symm.trans hsome)
    obtain ⟨hflag, fcrc, hfcrc, hunit, hcrc⟩ := Store.checkErased_iff.mp herased
    have hpair : pass.dir.pair = front := by
      calc pass.dir.pair = pass.belief.dir.pair := rfl
        _ = front := by rw [hbelief hflag, believed_pair]
    have hforward : pass.fcrc = store.forward front.1 := by
      calc pass.fcrc = pass.belief.fcrc := rfl
        _ = store.forward front.1 := by rw [hbelief hflag, believed_forward]
    refine ⟨fcrc, ?_, hunit, hcrc⟩
    rw [Store.conclude_dir, hpair, ← hforward]
    exact hfcrc

/-! ## A partial program of the next unit -/

/-- Nothing differs but at most four consecutive bytes of a span of one block. -/
structure PartialProgram (store store' : Store) (block : Word) (off size : ℕ) : Prop where
  writes : WritesWithin store store' block off (off + size)
  differs : DifferShortly (Images.read (store.bytes block) off size)
    (Images.read (store'.bytes block) off size)

theorem Chain.off_le_end {size : ℕ} {bytes : ℕ → Octet} {commits : List LogCommit}
    (hchain : Chain size bytes place commits) : place.off ≤ (endFrom place commits).off := by
  induction hchain with
  | nil place => exact le_refl _
  | @cons place commit rest hcommit hrest ih =>
      have hle : place.off ≤ commit.next.off := by
        have hoff := hcommit.off_le_crcOff
        have hcrc := hcommit.crcOff_lt
        omega
      exact Nat.le_trans hle ih

/-- A fetch finds the pair when one of its blocks holds a commit. -/
theorem Store.fetch_of_chosen (hsize : 4 ≤ store.cfg.blockSize) (hrange : store.InRange pair)
    (hchosen : store.chosen pair = some front) :
    ∃ fetched, store.fetchmatch Query.fetch pair = some fetched := by
  obtain ⟨-, hnone⟩ | ⟨front, -, -, hsome⟩ :=
    Store.fetchmatch_cases hsize hrange
      (fun front _ => Lookup.fetch_clean chain_completeCommits)
  · rw [hchosen] at hnone
    cases hnone
  · exact ⟨_, hsome⟩

/-- Short damage to the unit that the forward CRC is about shows, when the complete
commits are the same. -/
theorem PartialProgram.erased_eq_false {store' : Store} {fcrc : LfsFcrc}
    (hsize : 4 ≤ store.cfg.blockSize)
    (hfetch : store.fetchmatch Query.fetch pair = some fetched)
    (herased : fetched.dir.erased = true)
    (hforward : store.forward fetched.dir.pair.1 = some fcrc)
    (hunit : fetched.dir.off + fcrc.size.toNat ≤ store.cfg.blockSize)
    (hpart : PartialProgram store store' fetched.dir.pair.1 fetched.dir.off fcrc.size.toNat)
    (hlog : store'.log fetched.dir.pair.1 = store.log fetched.dir.pair.1) :
    ∃ fetched', store'.fetchmatch Query.fetch pair = some fetched' ∧
      fetched'.dir.erased = false := by
  have hclean : ∀ (store : Store) front, store.chosen pair = some front →
      Lookup.fetch.Clean ((store.log front.1).flatMap LogCommit.entries) :=
    fun store front _ => Lookup.fetch_clean chain_completeCommits
  have hrange : store.InRange pair := Store.inRange_of_fetch hfetch
  have hcurrent : Current store pair fetched.dir :=
    Store.fetched_current hsize hrange (hclean store) hfetch
  obtain ⟨hwrites, hdiffers⟩ := hpart
  have hoff : 4 ≤ fetched.dir.off := by
    rw [hcurrent.off_eq]
    exact Chain.off_le_end chain_completeCommits
  have hrange' : store'.InRange pair := hwrites.inRange hrange
  have hsize' : 4 ≤ store'.cfg.blockSize := by
    rw [hwrites.cfg_eq]
    exact hsize
  have hchosen' : store'.chosen pair = some fetched.dir.pair := by
    rw [← hcurrent.chosen]
    apply Store.chosen_eq
    · exact fun block _ => hwrites.revision_eq (Or.inr hoff)
    · intro block _
      by_cases hblock : block = fetched.dir.pair.1
      · rw [hblock, hlog]
      · rw [hwrites.log_other hblock]
  obtain ⟨fetched', hfetch'⟩ := Store.fetch_of_chosen hsize' hrange' hchosen'
  have hcurrent' : Current store' pair fetched'.dir :=
    Store.fetched_current hsize' hrange' (hclean store') hfetch'
  have hpair' : fetched'.dir.pair = fetched.dir.pair :=
    Option.some.inj (hcurrent'.chosen.symm.trans hchosen')
  have hoff' : fetched'.dir.off = fetched.dir.off := by
    rw [hcurrent'.off_eq, hcurrent.off_eq, hpair', hlog]
  refine ⟨fetched', hfetch', ?_⟩
  rw [← Bool.not_eq_true]
  intro herased'
  obtain ⟨fcrc', hforward', -, hcrc'⟩ :=
    Store.checked_of_erased hsize' hrange' hfetch' herased'
  obtain ⟨fcrc'', hforward'', -, hcrc⟩ := Store.checked_of_erased hsize hrange hfetch herased
  obtain rfl : fcrc = fcrc'' := Option.some.inj (hforward.symm.trans hforward'')
  obtain rfl : fcrc = fcrc' := by
    rw [hpair', Store.forward, hlog, hwrites.order_eq] at hforward'
    exact Option.some.inj (hforward.symm.trans hforward')
  rw [hpair', hoff'] at hcrc'
  have hblock : store.Readable fetched.dir.pair.1 := hcurrent.inRange.1
  rw [Store.crc_eq hblock hunit] at hcrc
  rw [Store.crc_eq (hwrites.readable.mpr hblock) (by rw [hwrites.cfg_eq]; exact hunit)] at hcrc'
  exact lfsCrc_ne 0xffffffff hdiffers (hcrc.trans hcrc'.symm)

/-- The table computes CRC-32, bit by bit with the reflected polynomial and without
the final inversion; a checksum over itself is zero; and damage of at most four
consecutive bytes changes it.  So a fetch sees such damage to the unit that follows
the last commit, when it leaves the complete commits as they are. -/
theorem lfsCrc_detects :
    (∀ crc buffer, lfsCrc crc buffer = Crc.feed crcPoly crc (bufferBits buffer)) ∧
      (∀ crc left right, lfsCrc (lfsCrc crc left) right = lfsCrc crc (left ++ right)) ∧
      (∀ crc, lfsCrc crc (leBytes crc) = 0) ∧
      (∀ crc left right, DifferShortly left right → lfsCrc crc left ≠ lfsCrc crc right) ∧
      ∀ (store store' : Store) (pair : WordPair) (fetched : Fetched) (fcrc : LfsFcrc),
        4 ≤ store.cfg.blockSize →
        store.fetchmatch Query.fetch pair = some fetched → fetched.dir.erased = true →
        store.forward fetched.dir.pair.1 = some fcrc →
        fetched.dir.off + fcrc.size.toNat ≤ store.cfg.blockSize →
        PartialProgram store store' fetched.dir.pair.1 fetched.dir.off fcrc.size.toNat →
        store'.log fetched.dir.pair.1 = store.log fetched.dir.pair.1 →
        ∃ fetched', store'.fetchmatch Query.fetch pair = some fetched' ∧
          fetched'.dir.erased = false :=
  ⟨lfsCrc_eq_feed, fun crc left right => (lfsCrc_append crc left right).symm, lfsCrc_leBytes,
    fun crc _ _ hdiffer => lfsCrc_ne crc hdiffer,
    fun _ _ _ _ _ hsize hfetch herased hforward hunit hpart hlog =>
      hpart.erased_eq_false hsize hfetch herased hforward hunit hlog⟩

/-! ## A block with stale contents -/

theorem differShortly_set {buffer : List Octet} {index : ℕ} {byte : Octet}
    (hindex : index < buffer.length) (hne : buffer[index] ≠ byte) :
    DifferShortly buffer (buffer.set index byte) where
  length_eq := List.length_set.symm
  ne := by
    intro heq
    have hbyte : buffer[index]? = (buffer.set index byte)[index]? := by rw [← heq]
    rw [List.getElem?_eq_getElem hindex, List.getElem?_set_self hindex] at hbyte
    exact hne (Option.some.inj hbyte)
  window := by
    refine ⟨index, ?_⟩
    intro other hother
    by_cases hsame : index = other
    · omega
    · rw [List.getElem?_set_ne hsame] at hother
      exact absurd rfl hother

/-- Revision 1 and one commit with a forward CRC; behind it a second commit, whose
first byte is not the one that makes its tag valid. -/
def staleImage : List Octet :=
  [0x01, 0x00, 0x00, 0x00, 0xa0, 0x00, 0x03, 0xf7, 0x10, 0x00, 0x00, 0x00, 0x81, 0x81, 0xa6, 0xdc,
    0x0f, 0xf0, 0x00, 0x04, 0x67, 0xfd, 0x61, 0x11, 0xff, 0xff, 0xff, 0xff, 0xff, 0xff, 0xff, 0xff,
    0x8f, 0xf0, 0x00, 0x04, 0x10, 0x00, 0x00, 0x00, 0xe5, 0x39, 0x4c, 0xc0, 0x0f, 0xf0, 0x00, 0x18,
    0x75, 0x6c, 0x5b, 0x80, 0xff, 0xff, 0xff, 0xff, 0xff, 0xff, 0xff, 0xff, 0xff, 0xff, 0xff, 0xff]

theorem staleImage_fetch :
    ∃ fetched, (blockStore staleImage).fetchmatch Query.fetch (0, 1) = some fetched ∧
      fetched.dir.pair = (0, 1) ∧ fetched.dir.off = 32 ∧ fetched.dir.erased = true := by
  have hfetch : ((blockStore staleImage).fetchmatch Query.fetch (0, 1)).map
      (fun fetched => (fetched.dir.pair, fetched.dir.off, fetched.dir.erased)) =
        some ((0, 1), 32, true) := by decide +kernel
  obtain ⟨fetched, hsome, hfacts⟩ := Option.map_eq_some_iff.mp hfetch
  obtain ⟨hpair, hoff, herased⟩ := by simpa only [Prod.mk.injEq] using hfacts
  exact ⟨fetched, hsome, hpair, hoff, herased⟩

/-- A program of one byte of the second unit. -/
theorem partialProgram_stale (index : ℕ) {byte : Octet} (hindex : index < 16)
    (hne : (Images.read ((blockStore staleImage).bytes 0) 32 16)[index]? ≠ some byte)
    (hread : Images.read (((blockStore staleImage).prog 0 (32 + index) [byte]).bytes 0) 32 16 =
      (Images.read ((blockStore staleImage).bytes 0) 32 16).set index byte) :
    PartialProgram (blockStore staleImage) ((blockStore staleImage).prog 0 (32 + index) [byte]) 0
      32 16 where
  writes := WritesWithin.prog (Nat.le_add_right 32 index) (by
    rw [List.length_singleton]
    omega)
  differs := by
    have hlength : index < (Images.read ((blockStore staleImage).bytes 0) 32 16).length := by
      rw [Images.length_read]
      exact hindex
    rw [List.getElem?_eq_getElem hlength] at hne
    rw [hread]
    exact differShortly_set hlength fun heq => hne (congrArg some heq)

/-- A byte that leaves the second commit incomplete makes the fetch notice. -/
theorem staleImage_detects :
    ∃ fetched', ((blockStore staleImage).prog 0 33 [0x07]).fetchmatch Query.fetch (0, 1) =
      some fetched' ∧ fetched'.dir.erased = false := by
  obtain ⟨fetched, hfetch, hpair, hoff, herased⟩ := staleImage_fetch
  apply lfsCrc_detects.2.2.2.2 (blockStore staleImage) _ (0, 1) fetched
    ⟨0x00000010, 0xdca68181⟩ (by decide) hfetch herased
  · rw [hpair]
    decide +kernel
  · rw [hoff]
    decide
  · rw [hpair, hoff]
    exact partialProgram_stale 1 (by decide) (by decide +kernel) (by decide +kernel)
  · rw [hpair]
    decide +kernel

/-- The byte that completes the second commit does not: the forward CRC that the fetch
compares is the one of that commit. -/
theorem staleImage_hides :
    ¬∀ (store store' : Store) (pair : WordPair) (fetched : Fetched) (fcrc : LfsFcrc),
      4 ≤ store.cfg.blockSize →
      store.fetchmatch Query.fetch pair = some fetched → fetched.dir.erased = true →
      store.forward fetched.dir.pair.1 = some fcrc →
      fetched.dir.off + fcrc.size.toNat ≤ store.cfg.blockSize →
      PartialProgram store store' fetched.dir.pair.1 fetched.dir.off fcrc.size.toNat →
      ∃ fetched', store'.fetchmatch Query.fetch pair = some fetched' ∧
        fetched'.dir.erased = false := by
  intro hclaim
  obtain ⟨fetched, hfetch, hpair, hoff, herased⟩ := staleImage_fetch
  have hforward : (blockStore staleImage).forward fetched.dir.pair.1 =
      some ⟨0x00000010, 0xdca68181⟩ := by
    rw [hpair]
    decide +kernel
  have hunit : fetched.dir.off + 16 ≤ 128 := by
    rw [hoff]
    norm_num
  have hpart : PartialProgram (blockStore staleImage)
      ((blockStore staleImage).prog 0 32 [0x0f]) fetched.dir.pair.1 fetched.dir.off 16 := by
    rw [hpair, hoff]
    exact partialProgram_stale 0 (by decide) (by decide +kernel) (by decide +kernel)
  obtain ⟨fetched', hfetch', herased'⟩ := hclaim _ _ _ _ _ (by decide) hfetch herased hforward
    hunit hpart
  have hstill : (((blockStore staleImage).prog 0 32 [0x0f]).fetchmatch Query.fetch (0, 1)).map
      (fun fetched => fetched.dir.erased) = some true := by decide +kernel
  rw [hfetch', Option.map_some, herased'] at hstill
  cases hstill

end Littlefs.Disk
