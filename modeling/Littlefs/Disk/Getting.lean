import Littlefs.Disk.Rereading

/-!
# Reading a tag back

`lfs_dir_getslice` walks from the end of a directory towards the front of its block
and takes the first tag that matches.  `Trail` lists the tags that such a walk
meets; behind a chain of complete commits these are its tags, the last one first.
The global state of a directory is the last one stored.
-/

namespace Littlefs.Disk

open Words

/-- The loop of `lfs_dir_getslice`.  Each turn goes at least four bytes back. -/
def Store.getsliceGo (store : Store) (block gmask gtag : Word) (goff size : ℕ) :
    ℕ → ℕ → Word → Word → Except Fault (Word × List Octet)
  | 0, _, _, _ => .error (.error .noEntry)
  | fuel + 1, off, tag, gdiff =>
      if 4 + (tagOf tag).dsize ≤ off then
        let off := off - (tagOf tag).dsize
        match store.read block off 4 with
        | none => .error (.error .corrupt)
        | some buffer =>
            let ntag := (store.order.be (store.order.ofBytes buffer) ^^^ tag) &&& 0x7fffffff
            let spliced := (tagOf gmask).id ≠ 0 ∧ (tagOf tag).type1 = tySplice ∧
              (tagOf tag).id ≤ (tagOf (gtag - gdiff)).id
            if spliced ∧ tag = mktag tyCreate 0 0 ||| (mktag 0 0x3ff 0 &&& (gtag - gdiff)) then
              .error (.error .noEntry)
            else
              let gdiff := if spliced then gdiff + mkdiff (tagOf tag).splice else gdiff
              if gmask &&& tag = gmask &&& (gtag - gdiff) then
                if (tagOf tag).isdelete then
                  .error (.error .noEntry)
                else
                  let diff := min (tagOf tag).size size
                  match store.read block (off + 4 + goff) diff with
                  | none => .error (.error .corrupt)
                  | some buffer => .ok (tag + gdiff, buffer ++ List.replicate (size - diff) 0)
              else
                Store.getsliceGo store block gmask gtag goff size fuel off ntag gdiff
      else
        .error (.error .noEntry)

/-- `lfs_dir_getslice`, with a buffer of `size` bytes. -/
def lfsDirGetslice (store : Store) (dir : LfsMdir) (gmask gtag : Word) (goff size : ℕ) :
    Except Fault (Word × List Octet) :=
  let moved := store.gdisk.hasmovehere dir.pair = true ∧ (tagOf gmask).id ≠ 0
  if moved ∧ (tagOf store.gdisk.tag).id = (tagOf gtag).id then
    .error (.error .noEntry)
  else
    store.getsliceGo dir.pair.1 gmask gtag goff size (dir.off + 1) dir.off dir.etag
      (if moved ∧ (tagOf store.gdisk.tag).id < (tagOf gtag).id then 0 - mktag 0 1 0 else 0)

/-- `lfs_dir_get`. -/
def lfsDirGet (store : Store) (dir : LfsMdir) (gmask gtag : Word) :
    Except Fault (Word × List Octet) :=
  lfsDirGetslice store dir gmask gtag 0 (tagOf gtag).size

/-- `lfs_gstate_xor`. -/
def LfsGstate.xor (a b : LfsGstate) : LfsGstate where
  tag := a.tag ^^^ b.tag
  pair := (a.pair.1 ^^^ b.pair.1, a.pair.2 ^^^ b.pair.2)

/-- `lfs_gstate_iszero`. -/
def LfsGstate.iszero (a : LfsGstate) : Bool :=
  a.tag == 0 && a.pair.1 == 0 && a.pair.2 == 0

/-- `lfs_gstate_fromle32` over the bytes read. -/
def LfsGstate.ofBytes (order : ByteOrder) (buffer : List Octet) : LfsGstate where
  tag := order.le (order.ofBytes buffer)
  pair := (order.le (order.ofBytes (buffer.drop 4)), order.le (order.ofBytes (buffer.drop 8)))

/-- The bytes of an `LfsGstate` after `lfs_gstate_tole32`. -/
def LfsGstate.bytes (order : ByteOrder) (gstate : LfsGstate) : List Octet :=
  order.bytes (order.le gstate.tag) ++ order.bytes (order.le gstate.pair.1) ++
    order.bytes (order.le gstate.pair.2)

/-- `lfs_dir_getgstate`. -/
def lfsDirGetgstate (store : Store) (dir : LfsMdir) (gstate : LfsGstate) : Except Fault LfsGstate :=
  match lfsDirGet store dir (mktag 0x7ff 0 0) (mktag tyMovestate 0 12) with
  | .error (.error .noEntry) => .ok gstate
  | .error e => .error e
  | .ok (_, buffer) => .ok (gstate.xor (LfsGstate.ofBytes store.order buffer))

/-! ## The tags that the walk meets -/

/-- The tags in front of a place, the last one first.  A walk knows them up to their
top bits. -/
inductive Trail (bytes : ℕ → Octet) : ℕ → Word → List TagData → Prop
  | first : Trail bytes 4 nullWord []
  | tag {off : ℕ} {ptag : Word} {trail : List TagData} (tag : Word)
      (hrest : Trail bytes off ptag trail)
      (htag : tag &&& 0x7fffffff = tagAt bytes off ptag &&& 0x7fffffff) :
      Trail bytes (off + (tagOf tag).dsize) tag
        ((tag, Images.read bytes (off + 4) ((tagOf tag).dsize - 4)) :: trail)

variable {store store' : Store} {bytes bytes' : ℕ → Octet} {off off' size fuel : ℕ}
  {block gmask gtag ptag ptag' tag ntag : Word} {met : List TagData} {entries : List Entry}
  {place : Place} {commit : LogCommit} {commits : List LogCommit} {dir : LfsMdir}

theorem Trail.four_le (htrail : Trail bytes off ptag met) : 4 ≤ off := by
  induction htrail with
  | first => exact le_refl 4
  | tag tag hrest htag ih => exact Nat.le_add_right_of_le ih

/-- Every tag is met with as much data as it says. -/
theorem Trail.length_eq {entry : TagData} (htrail : Trail bytes off ptag met)
    (hmem : entry ∈ met) : entry.2.length = (tagOf entry.1).dsize - 4 := by
  induction htrail with
  | first => exact absurd hmem List.not_mem_nil
  | tag tag hrest htag ih =>
      obtain rfl | hmem' := List.mem_cons.mp hmem
      · exact Images.length_read
      · exact ih hmem'

theorem Entries.trail (hentries : Entries size bytes off ptag entries off' ptag')
    (htrail : Trail bytes off ptag met) :
    Trail bytes off' ptag' ((entries.map Entry.tagData).reverse ++ met) := by
  induction hentries generalizing met with
  | nil off ptag => exact htrail
  | @cons off off' ptag ptag' rest hentry hrest ih =>
      have hstep := ih (Trail.tag (tagAt bytes off ptag) htrail rfl)
      simp only [List.map_cons, List.reverse_cons, List.append_assoc, List.singleton_append]
      exact hstep

theorem xor_and_distrib (a b mask : Word) : (a ^^^ b) &&& mask = (a &&& mask) ^^^ (b &&& mask) := by
  apply BitVec.eq_of_getLsbD_eq
  intro index hindex
  simp only [BitVec.getLsbD_and, BitVec.getLsbD_xor, Bool.and_xor_distrib_right]

theorem perturb_low (chunk : ℕ) (word : Word) :
    perturb chunk word &&& 0x7fffffff = word &&& 0x7fffffff := by
  have hmask : ∀ word mask : Word, mask &&& 0x7fffffff = 0 →
      (word ^^^ mask) &&& 0x7fffffff = word &&& 0x7fffffff := by
    intro word mask hmask
    rw [xor_and_distrib, hmask]
    exact BitVec.xor_zero
  rw [perturb_eq]
  apply hmask
  split <;> decide

/-- Not a CRC tag. -/
def ofEntry (entry : TagData) : Bool := (tagOf entry.1).type2 != tyCcrc

theorem Entries.filter_ofEntry (hentries : Entries size bytes off ptag entries off' ptag') :
    (entries.map Entry.tagData).filter ofEntry = entries.map Entry.tagData := by
  rw [List.filter_eq_self]
  intro entry hmem
  obtain ⟨read, hread, rfl⟩ := List.mem_map.mp hmem
  obtain ⟨off, hentry, -⟩ := hentries.mem hread
  exact bne_iff_ne.mpr hentry.2.2

/-- The tags of a commit, and its CRC tag behind them. -/
def LogCommit.tags (bytes : ℕ → Octet) (commit : LogCommit) : List TagData :=
  commit.entries.map Entry.tagData ++
    [(commit.next.ptag,
      Images.read bytes (commit.crcOff + 4) ((tagOf commit.next.ptag).dsize - 4))]

/-- The tags of a chain of commits, from the first to the last. -/
def chainTags (bytes : ℕ → Octet) (commits : List LogCommit) : List TagData :=
  commits.flatMap (LogCommit.tags bytes)

theorem Complete.trail (hcommit : Complete size bytes place commit)
    (htrail : Trail bytes place.off place.ptag met) :
    Trail bytes commit.next.off commit.next.ptag ((commit.tags bytes).reverse ++ met) := by
  obtain ⟨hentries, hcloses⟩ := hcommit
  rename_i entries off ptag
  have hlow : perturb (tagOf (tagAt bytes off ptag)).chunk (tagAt bytes off ptag) &&& 0x7fffffff =
      tagAt bytes off ptag &&& 0x7fffffff := perturb_low _ _
  have hclosed := Trail.tag (perturb (tagOf (tagAt bytes off ptag)).chunk (tagAt bytes off ptag))
    (hentries.trail htrail) hlow
  rw [tagOf_perturb] at hclosed
  simp only [LogCommit.tags, closed, tagOf_perturb, List.reverse_append, List.reverse_cons,
    List.reverse_nil, List.nil_append, List.cons_append]
  exact hclosed

/-- Behind a chain the walk meets its tags, from the last to the first. -/
theorem Chain.trail (hchain : Chain size bytes place commits)
    (htrail : Trail bytes place.off place.ptag met) :
    Trail bytes (endFrom place commits).off (endFrom place commits).ptag
      ((chainTags bytes commits).reverse ++ met) := by
  induction hchain generalizing met with
  | nil place => exact htrail
  | @cons place commit rest hcommit hrest ih =>
      have hbehind := ih (hcommit.trail htrail)
      rw [chainTags, List.flatMap_cons, List.reverse_append, List.append_assoc]
      exact hbehind

theorem Complete.filter_tags (hcommit : Complete size bytes place commit) :
    (commit.tags bytes).filter ofEntry = commit.entries.map Entry.tagData := by
  obtain ⟨hentries, hcloses⟩ := hcommit
  rename_i entries off ptag
  have htype : ∀ data : List Octet, ¬ofEntry
      (perturb (tagOf (tagAt bytes off ptag)).chunk (tagAt bytes off ptag), data) = true := by
    intro data
    simp only [ofEntry, tagOf_perturb, hcloses.2.2.1, bne_self_eq_false, Bool.false_eq_true,
      not_false_eq_true]
  simp only [LogCommit.tags, closed]
  rw [List.filter_append, hentries.filter_ofEntry, List.filter_cons_of_neg (htype _),
    List.filter_nil, List.append_nil]

/-- The tags that are not CRC tags are the entries. -/
theorem Chain.filter_chainTags (hchain : Chain size bytes place commits) :
    (chainTags bytes commits).filter ofEntry =
      (commits.flatMap LogCommit.entries).map Entry.tagData := by
  induction hchain with
  | nil place => rfl
  | @cons place commit rest hcommit hrest ih =>
      rw [chainTags, List.flatMap_cons, List.filter_append, List.flatMap_cons, List.map_append,
        hcommit.filter_tags, ← ih, chainTags]

/-! ## The walk -/

theorem be_ofBytes (order : ByteOrder) (a b c d : Octet) :
    order.be (order.ofBytes [a, b, c, d]) = ofBeBytes [a, b, c, d] := by
  have hbytes : beBytes (ofBeBytes [a, b, c, d]) = [a, b, c, d] := by
    have hreverse : ∀ word : Word, beBytes word = (leBytes word).reverse := fun word => rfl
    have hword : ofBeBytes [a, b, c, d] = ofLeBytes [d, c, b, a] := rfl
    rw [hreverse, hword, leBytes_ofLeBytes]
    rfl
  calc order.be (order.ofBytes [a, b, c, d])
      = order.be (order.ofBytes (beBytes (ofBeBytes [a, b, c, d]))) := by rw [hbytes]
    _ = ofBeBytes [a, b, c, d] := ByteOrder.be_ofBytes_beBytes order _

theorem be_ofBytes_read (order : ByteOrder) (bytes : ℕ → Octet) (off : ℕ) :
    order.be (order.ofBytes (Images.read bytes off 4)) = ofBeBytes (Images.read bytes off 4) :=
  be_ofBytes order _ _ _ _

theorem and_low {mask word word' : Word} (hmask : mask &&& 0x7fffffff = mask)
    (hword : word &&& 0x7fffffff = word' &&& 0x7fffffff) : mask &&& word = mask &&& word' := by
  calc mask &&& word = mask &&& (word &&& 0x7fffffff) := by
        rw [BitVec.and_comm word, ← BitVec.and_assoc, hmask]
    _ = mask &&& (word' &&& 0x7fffffff) := by rw [hword]
    _ = mask &&& word' := by rw [BitVec.and_comm word', ← BitVec.and_assoc, hmask]

theorem tagOf_low {word word' : Word} (hword : word &&& 0x7fffffff = word' &&& 0x7fffffff) :
    tagOf word = tagOf word' := by
  rw [← tagOf_clear word, hword, tagOf_clear]

def matchesTag (gmask gtag : Word) (entry : TagData) : Bool :=
  gmask &&& entry.1 == gmask &&& gtag

/-- The bytes of a buffer, and the zeros behind them. -/
def padded (size : ℕ) (data : List Octet) : List Octet :=
  data.take size ++ List.replicate (size - data.length) 0

@[simp]
theorem length_padded (size : ℕ) (data : List Octet) : (padded size data).length = size := by
  rw [padded, List.length_append, List.length_take, List.length_replicate]
  omega

/-- An answer of the walk: its tag word as fields, and the buffer. -/
def fieldsOf (answer : Word × List Octet) : Tag × List Octet := (tagOf answer.1, answer.2)

/-- What the walk finds, by the tags it meets. -/
def findTag (gmask gtag : Word) (size : ℕ) (met : List TagData) :
    Except Fault (Tag × List Octet) :=
  match met.find? (matchesTag gmask gtag) with
  | none => .error (.error .noEntry)
  | some (tag, data) =>
      if (tagOf tag).isdelete then .error (.error .noEntry)
      else .ok (tagOf tag, padded size data)

/-- At a tag that the walk meets, it reads the word of the tag in front. -/
theorem Store.read_word (hblock : store.Readable block)
    (hrest : Trail (store.bytes block) off ptag met)
    (htag : tag &&& 0x7fffffff = tagAt (store.bytes block) off ptag &&& 0x7fffffff)
    (hoff : off + (tagOf tag).dsize ≤ store.cfg.blockSize)
    (hntag : ntag &&& 0x7fffffff = tag &&& 0x7fffffff) :
    store.read block off 4 = some (Images.read (store.bytes block) off 4) ∧
      (ofBeBytes (Images.read (store.bytes block) off 4) ^^^ ntag) &&& 0x7fffffff =
        ptag &&& 0x7fffffff := by
  have hfour := hrest.four_le
  have hdsize := four_le_dsize (tagOf tag)
  constructor
  · exact Store.read_eq hblock (by omega)
  · rw [xor_and_distrib, hntag, htag, tagAt, xor_and_distrib, ← BitVec.xor_assoc,
      BitVec.xor_self, BitVec.zero_xor]

/-- The data of a tag that the walk meets, cut to the buffer. -/
theorem Store.read_data (hblock : store.Readable block)
    (hoff : off + (tagOf tag).dsize ≤ store.cfg.blockSize)
    (hdelete : ¬(tagOf tag).isdelete = true) (size : ℕ) :
    store.read block (off + 4 + 0) (min (tagOf tag).size size) =
        some (Images.read (store.bytes block) (off + 4) (min (tagOf tag).size size)) ∧
      Images.read (store.bytes block) (off + 4) (min (tagOf tag).size size) ++
          List.replicate (size - min (tagOf tag).size size) 0 =
        padded size (Images.read (store.bytes block) (off + 4) ((tagOf tag).dsize - 4)) := by
  have hdsize := four_le_dsize (tagOf tag)
  have hsize : (tagOf tag).size = (tagOf tag).dsize - 4 :=
    size_eq_of_not_isdelete (eq_false_of_ne_true hdelete)
  constructor
  · exact Store.read_eq hblock (by omega)
  · rw [padded, Images.length_read, ← hsize]
    by_cases hle : size ≤ (tagOf tag).size
    · rw [min_eq_right hle, Images.take_read hle, Nat.sub_self, Nat.sub_eq_zero_of_le hle]
    · have hge : (tagOf tag).size ≤ size := Nat.le_of_not_le hle
      rw [min_eq_left hge, List.take_of_length_le]
      rw [Images.length_read]
      exact hge

/-- A turn of the walk, at a tag that it meets. -/
theorem Store.getsliceGo_step (hblock : store.Readable block)
    (hrest : Trail (store.bytes block) off ptag met)
    (htag : tag &&& 0x7fffffff = tagAt (store.bytes block) off ptag &&& 0x7fffffff)
    (hoff : off + (tagOf tag).dsize ≤ store.cfg.blockSize)
    (hntag : ntag &&& 0x7fffffff = tag &&& 0x7fffffff) (gdiff : Word) :
    store.getsliceGo block gmask gtag 0 size (fuel + 1) (off + (tagOf tag).dsize) ntag gdiff =
      let spliced := (tagOf gmask).id ≠ 0 ∧ (tagOf tag).type1 = tySplice ∧
        (tagOf tag).id ≤ (tagOf (gtag - gdiff)).id
      if spliced ∧ ntag = mktag tyCreate 0 0 ||| (mktag 0 0x3ff 0 &&& (gtag - gdiff)) then
        .error (.error .noEntry)
      else
        let gdiff := if spliced then gdiff + mkdiff (tagOf tag).splice else gdiff
        if gmask &&& ntag = gmask &&& (gtag - gdiff) then
          if (tagOf tag).isdelete then
            .error (.error .noEntry)
          else
            .ok (ntag + gdiff, padded size
              (Images.read (store.bytes block) (off + 4) ((tagOf tag).dsize - 4)))
        else
          store.getsliceGo block gmask gtag 0 size fuel off (ptag &&& 0x7fffffff) gdiff := by
  have hfour := hrest.four_le
  have hsame : tagOf ntag = tagOf tag := tagOf_low hntag
  have hstep : 4 + (tagOf tag).dsize ≤ off + (tagOf tag).dsize := Nat.add_le_add_right hfour _
  have hback : off + (tagOf tag).dsize - (tagOf tag).dsize = off := Nat.add_sub_cancel _ _
  obtain ⟨hread, hword⟩ := Store.read_word hblock hrest htag hoff hntag
  rw [Store.getsliceGo]
  simp only [hsame, if_pos hstep, hback, hread, be_ofBytes_read, hword]
  split
  · rfl
  · -- with and without a splice of an earlier id
    split
    all_goals
      split
      · split
        · rfl
        · rename_i hdelete
          obtain ⟨hbody, hpadded⟩ := Store.read_data hblock hoff hdelete size
          simp only [hbody, hpadded]
      · rfl

/-- A walk that does not ask about an id takes the first tag that matches. -/
theorem Store.getsliceGo_eq (hblock : store.Readable block) (hmask : gmask &&& 0x7fffffff = gmask)
    (hid : (tagOf gmask).id = 0) (htrail : Trail (store.bytes block) off ptag met)
    (hoff : off ≤ store.cfg.blockSize) (hntag : ntag &&& 0x7fffffff = ptag &&& 0x7fffffff)
    (hfuel : off < fuel) :
    (store.getsliceGo block gmask gtag 0 size fuel off ntag 0).map fieldsOf =
      findTag gmask gtag size met := by
  induction htrail generalizing fuel ntag with
  | first =>
      obtain ⟨fuel, rfl⟩ := Nat.exists_eq_add_of_lt (Nat.zero_lt_of_lt hfuel)
      have hdsize := four_le_dsize (tagOf ntag)
      have hstop : ¬4 + (tagOf ntag).dsize ≤ 4 := by omega
      rw [Nat.zero_add, Store.getsliceGo, if_neg hstop]
      rfl
  | @tag off ptag met tag hrest htag ih =>
      obtain ⟨fuel, rfl⟩ := Nat.exists_eq_add_of_lt (Nat.zero_lt_of_lt hfuel)
      have hdsize := four_le_dsize (tagOf tag)
      have hspliced : ¬((tagOf gmask).id ≠ 0 ∧ (tagOf tag).type1 = tySplice ∧
          (tagOf tag).id ≤ (tagOf gtag).id) := fun hspliced => hspliced.1 hid
      have hnone : ¬(((tagOf gmask).id ≠ 0 ∧ (tagOf tag).type1 = tySplice ∧
          (tagOf tag).id ≤ (tagOf gtag).id) ∧
            ntag = mktag tyCreate 0 0 ||| (mktag 0 0x3ff 0 &&& gtag)) :=
        fun hboth => hspliced hboth.1
      have hmatch : gmask &&& ntag = gmask &&& tag := and_low hmask hntag
      have hzero : gtag - (0 : Word) = gtag := BitVec.sub_zero gtag
      rw [Nat.zero_add, Store.getsliceGo_step hblock hrest htag hoff hntag]
      simp only [hzero, if_neg hnone, if_neg hspliced, hmatch]
      by_cases hfound : gmask &&& tag = gmask &&& gtag
      · have hfind : matchesTag gmask gtag (tag, Images.read (store.bytes block) (off + 4)
            ((tagOf tag).dsize - 4)) = true := beq_iff_eq.mpr hfound
        rw [if_pos hfound, findTag, List.find?_cons_of_pos hfind]
        by_cases hdelete : (tagOf tag).isdelete = true
        · simp only [hdelete, if_true]
          rfl
        · have hanswer : tagOf (ntag + (0 : Word)) = tagOf tag := by
            have hsum : ntag + (0 : Word) = ntag := BitVec.add_zero ntag
            rw [hsum]
            exact tagOf_low hntag
          simp only [if_neg hdelete, Except.map, fieldsOf, hanswer]
      · have hfind : ¬matchesTag gmask gtag (tag, Images.read (store.bytes block) (off + 4)
            ((tagOf tag).dsize - 4)) = true := by
          rw [matchesTag, beq_iff_eq]
          exact hfound
        have hclear : ptag &&& 0x7fffffff &&& 0x7fffffff = ptag &&& 0x7fffffff := by
          rw [BitVec.and_assoc, BitVec.and_self]
        rw [if_neg hfound, findTag, List.find?_cons_of_neg hfind]
        exact ih (by omega) hclear (by omega)

/-! ## The global state of a directory -/

theorem toNat_type_mask (tag : Word) :
    (mktag 0x7ff 0 0 &&& tag).toNat = (tagOf tag).type * 2 ^ 20 := by
  have hmask : (mktag 0x7ff 0 0).toNat = (2 ^ 11 - 1) * 2 ^ 20 := by decide
  rw [BitVec.toNat_and, hmask, tagOf]
  generalize tag.toNat = word
  apply Nat.eq_of_testBit_eq
  intro index
  rw [Nat.testBit_and, Nat.testBit_mul_two_pow, Nat.testBit_mul_two_pow,
    Nat.testBit_two_pow_sub_one, Nat.testBit_mod_two_pow, Nat.testBit_div_two_pow]
  by_cases hlow : 20 ≤ index
  · have hindex : index - 20 + 20 = index := Nat.sub_add_cancel hlow
    simp only [decide_eq_true hlow, Bool.true_and, hindex]
  · simp only [decide_eq_false hlow, Bool.false_and]

/-- The mask of all type bits. -/
theorem matchesTag_type {gtag : Word} {entry : TagData} :
    matchesTag (mktag 0x7ff 0 0) gtag entry = true ↔ (tagOf entry.1).type = (tagOf gtag).type := by
  rw [matchesTag, beq_iff_eq, ← BitVec.toNat_inj, toNat_type_mask, toNat_type_mask]
  omega

def isMovestate : TagData → Bool := matchesTag (mktag 0x7ff 0 0) (mktag tyMovestate 0 12)

theorem isMovestate_iff {entry : TagData} :
    isMovestate entry = true ↔ (tagOf entry.1).type = tyMovestate := by
  rw [isMovestate, matchesTag_type, tagOf_mktag (by decide) (by decide) (by decide)]

theorem ofEntry_of_isMovestate {entry : TagData} (hmove : isMovestate entry = true) :
    ofEntry entry = true := by
  have htype : (tagOf entry.1).type2 = tyMovestate &&& 0x780 := by
    rw [Tag.type2, isMovestate_iff.mp hmove]
  have hne : tyMovestate &&& 0x780 ≠ tyCcrc := by decide
  rw [ofEntry, htype]
  exact bne_iff_ne.mpr hne

/-- The global state that the last of `tags` stores. -/
def storedGstate (tags : List TagData) : LfsGstate :=
  match tags.reverse.find? isMovestate with
  | none => {}
  | some (tag, data) =>
      if (tagOf tag).isdelete then {}
      else LfsGstate.ofBytes .little (padded 12 data)

theorem LfsGstate.ofBytes_eq (order : ByteOrder) {buffer : List Octet}
    (hlength : buffer.length = 12) :
    LfsGstate.ofBytes order buffer = LfsGstate.ofBytes .little buffer := by
  have hwhole := fun order : ByteOrder => le_ofBytes order (by omega : 4 ≤ buffer.length)
  have hmiddle := fun order : ByteOrder =>
    le_ofBytes order (by rw [List.length_drop]; omega : 4 ≤ (buffer.drop 4).length)
  have hlast := fun order : ByteOrder =>
    le_ofBytes order (by rw [List.length_drop]; omega : 4 ≤ (buffer.drop 8).length)
  simp only [LfsGstate.ofBytes, hwhole, hmiddle, hlast]

@[simp]
theorem LfsGstate.xor_zero (gstate : LfsGstate) : gstate.xor {} = gstate := by
  cases gstate
  simp [LfsGstate.xor]

/-- The global state read from a directory that ends where a chain of commits ends. -/
theorem lfsDirGetgstate_eq (hblock : store.Readable dir.pair.1) (hsize : 4 ≤ store.cfg.blockSize)
    (hchain : Chain store.cfg.blockSize (store.bytes dir.pair.1) Place.first commits)
    (hoff : dir.off = (endOf commits).off) (hetag : dir.etag = (endOf commits).ptag)
    (gstate : LfsGstate) :
    lfsDirGetgstate store dir gstate = .ok (gstate.xor
      (storedGstate ((commits.flatMap LogCommit.entries).map Entry.tagData))) := by
  have htrail := hchain.trail Trail.first
  have hfilter : ((chainTags (store.bytes dir.pair.1) commits).reverse ++ []).filter ofEntry =
      ((commits.flatMap LogCommit.entries).map Entry.tagData).reverse := by
    rw [List.append_nil, List.filter_reverse, hchain.filter_chainTags]
  generalize (chainTags (store.bytes dir.pair.1) commits).reverse ++ [] = met at htrail hfilter
  have hend := hchain.end_le hsize
  have hgo : (store.getsliceGo dir.pair.1 (mktag 0x7ff 0 0) (mktag tyMovestate 0 12) 0 12
      (dir.off + 1) dir.off dir.etag 0).map fieldsOf =
        findTag (mktag 0x7ff 0 0) (mktag tyMovestate 0 12) 12 met := by
    rw [hoff, hetag]
    exact Store.getsliceGo_eq hblock (by decide) (by decide) htrail hend rfl (Nat.lt_succ_self _)
  have hfind : met.find? isMovestate =
      ((commits.flatMap LogCommit.entries).map Entry.tagData).reverse.find? isMovestate := by
    rw [← hfilter, List.find?_filter]
    congr 1
    funext entry
    cases hmove : isMovestate entry with
    | false => simp
    | true => simp [ofEntry_of_isMovestate hmove]
  have hget : lfsDirGet store dir (mktag 0x7ff 0 0) (mktag tyMovestate 0 12) =
      store.getsliceGo dir.pair.1 (mktag 0x7ff 0 0) (mktag tyMovestate 0 12) 0 12
        (dir.off + 1) dir.off dir.etag 0 := by
    have hid : (tagOf (mktag 0x7ff 0 0)).id = 0 := by decide
    have height : (tagOf (mktag tyMovestate 0 12)).size = 12 := by decide
    simp only [lfsDirGet, lfsDirGetslice, hid, height, ne_eq, not_true_eq_false, and_false,
      false_and, if_false]
  have hnoEntry : ∀ walk : Except Fault (Word × List Octet),
      walk.map fieldsOf = .error (.error .noEntry) → walk = .error (.error .noEntry) := by
    intro walk hwalk
    cases walk with
    | error e =>
        cases hwalk
        rfl
    | ok found => cases hwalk
  rw [lfsDirGetgstate, hget]
  have hmoves : findTag (mktag 0x7ff 0 0) (mktag tyMovestate 0 12) 12 met =
      match met.find? isMovestate with
      | none => .error (.error .noEntry)
      | some (tag, data) =>
          if (tagOf tag).isdelete then .error (.error .noEntry)
          else .ok (tagOf tag, padded 12 data) := rfl
  rw [hmoves] at hgo
  rw [storedGstate, ← hfind]
  cases hfound : met.find? isMovestate with
  | none =>
      rw [hfound] at hgo
      simp only [hnoEntry _ hgo, LfsGstate.xor_zero]
  | some entry =>
      obtain ⟨tag, data⟩ := entry
      rw [hfound] at hgo
      simp only at hgo ⊢
      by_cases hdelete : (tagOf tag).isdelete = true
      · rw [if_pos hdelete] at hgo ⊢
        simp only [hnoEntry _ hgo, LfsGstate.xor_zero]
      · rw [if_neg hdelete] at hgo ⊢
        generalize store.getsliceGo dir.pair.1 (mktag 0x7ff 0 0) (mktag tyMovestate 0 12) 0 12
          (dir.off + 1) dir.off dir.etag 0 = walk at hgo
        cases walk with
        | error e => cases hgo
        | ok found =>
            have hbuffer : found.2 = padded 12 data := (Prod.mk.inj (Except.ok.inj hgo)).2
            simp only [hbuffer, LfsGstate.ofBytes_eq store.order (length_padded 12 data)]

/-! ## What the walk depends on -/

theorem Store.eq_of_read {buffer : List Octet} (hread : store.read block off size = some buffer) :
    buffer = Images.read (store.bytes block) off size := by
  rw [Store.read] at hread
  split at hread
  · cases hread
  · exact (Option.some.inj hread).symm

/-- The walk depends on what it reads, and not on the byte order of the host. -/
theorem Store.getsliceGo_congr {goff : ℕ} {gdiff : Word}
    (hread : ∀ off size, store'.read block off size = store.read block off size) :
    store'.getsliceGo block gmask gtag goff size fuel off tag gdiff =
      store.getsliceGo block gmask gtag goff size fuel off tag gdiff := by
  induction fuel generalizing off tag gdiff with
  | zero => rfl
  | succ fuel ih =>
      rw [Store.getsliceGo, Store.getsliceGo]
      split
      · simp only [hread]
        cases hbuffer : store.read block (off - (tagOf tag).dsize) 4 with
        | none => rfl
        | some buffer =>
            simp only [Store.eq_of_read hbuffer, be_ofBytes_read, ih]
      · rfl

theorem Store.getsliceGo_length {goff : ℕ} {gdiff : Word} {found : Word × List Octet}
    (hgo : store.getsliceGo block gmask gtag goff size fuel off tag gdiff = .ok found) :
    found.2.length = size := by
  induction fuel generalizing off tag gdiff with
  | zero => cases hgo
  | succ fuel ih =>
      rw [Store.getsliceGo] at hgo
      split at hgo
      · simp only at hgo
        cases hbuffer : store.read block (off - (tagOf tag).dsize) 4 with
        | none =>
            rw [hbuffer] at hgo
            cases hgo
        | some buffer =>
            rw [hbuffer] at hgo
            simp only at hgo
            split at hgo
            · cases hgo
            · generalize (if (tagOf gmask).id ≠ 0 ∧ (tagOf tag).type1 = tySplice ∧
                (tagOf tag).id ≤ (tagOf (gtag - gdiff)).id then gdiff + mkdiff (tagOf tag).splice
                  else gdiff) = gdiff' at hgo
              split at hgo
              · split at hgo
                · cases hgo
                · split at hgo
                  · cases hgo
                  · rename_i data hdata
                    cases hgo
                    have hlength := congrArg List.length (Store.eq_of_read hdata)
                    rw [Images.length_read] at hlength
                    simp only [List.length_append, hlength, List.length_replicate]
                    omega
              · exact ih hgo
      · cases hgo

theorem lfsDirGetgstate_congr {gstate : LfsGstate}
    (hread : ∀ off size, store'.read dir.pair.1 off size = store.read dir.pair.1 off size)
    (hgdisk : store'.gdisk = store.gdisk) :
    lfsDirGetgstate store' dir gstate = lfsDirGetgstate store dir gstate := by
  have hget : lfsDirGet store' dir (mktag 0x7ff 0 0) (mktag tyMovestate 0 12) =
      lfsDirGet store dir (mktag 0x7ff 0 0) (mktag tyMovestate 0 12) := by
    simp only [lfsDirGet, lfsDirGetslice, hgdisk, Store.getsliceGo_congr hread]
  rw [lfsDirGetgstate, lfsDirGetgstate, hget]
  cases hfound : lfsDirGet store dir (mktag 0x7ff 0 0) (mktag tyMovestate 0 12) with
  | error e =>
      cases e with
      | error code => cases code <;> rfl
      | panic reason => rfl
      | outOfFuel => rfl
      | badHandle => rfl
  | ok found =>
      have hlength : found.2.length = 12 := by
        rw [lfsDirGet, lfsDirGetslice] at hfound
        split at hfound
        · cases hfound
        · exact Store.getsliceGo_length hfound
      simp only [LfsGstate.ofBytes_eq store'.order hlength,
        LfsGstate.ofBytes_eq store.order hlength]

end Littlefs.Disk
