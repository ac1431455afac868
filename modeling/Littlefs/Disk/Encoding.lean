import Littlefs.Disk.Committing
import Littlefs.Disk.Commits

/-!
# The bytes of a run of tags

`encodeTags` lays tags out as the disk has them.  Writing attributes one after the
other programs the encoding of the tags they stand for, and a block that holds the
encoding of plain tags has them as its entries.
-/

namespace Littlefs.Disk

open Words

def encodeTags : Word → List TagData → List Octet
  | _, [] => []
  | ptag, (tag, data) :: rest => beBytes (tag ^^^ ptag) ++ data ++ encodeTags tag rest

/-- The word that the next tag is xor-ed with. -/
def lastTag (ptag : Word) (tags : List TagData) : Word := tags.foldl (fun _ entry => entry.1) ptag

theorem encodeTags_append (ptag : Word) (tags more : List TagData) :
    encodeTags ptag (tags ++ more) = encodeTags ptag tags ++
        encodeTags (lastTag ptag tags) more := by
  induction tags generalizing ptag with
  | nil => rfl
  | cons entry rest ih =>
      obtain ⟨tag, data⟩ := entry
      simp only [List.cons_append, encodeTags, ih, List.append_assoc]
      rfl

theorem lastTag_append (ptag : Word) (tags more : List TagData) :
    lastTag ptag (tags ++ more) = lastTag (lastTag ptag tags) more := List.foldl_append

/-- A valid tag that is no CRC tag, with as much data as it says. -/
structure IsPlain (entry : TagData) : Prop where
  valid : isvalid entry.1 = true
  type_ne : (tagOf entry.1).type2 ≠ tyCcrc
  length_eq : entry.2.length = (tagOf entry.1).dsize - 4

variable {size off : ℕ} {bytes : ℕ → Octet} {ptag tag : Word} {tags : List TagData}

theorem tagAt_eq (hread : Images.read bytes off 4 = beBytes (tag ^^^ ptag)) :
    tagAt bytes off ptag = tag := by
  rw [tagAt, hread, ofBeBytes_beBytes, BitVec.xor_assoc, BitVec.xor_self, BitVec.xor_zero]

/-- A span that reads as two parts has the parts in their places. -/
theorem read_parts {front back : List Octet}
    (hread : Images.read bytes off (front ++ back).length = front ++ back) :
    Images.read bytes off front.length = front ∧
      Images.read bytes (off + front.length) back.length = back := by
  rw [List.length_append, Images.read_add] at hread
  exact List.append_inj hread Images.length_read

/-- A block holds the entries whose encoding it holds. -/
theorem entries_of_read (hplain : ∀ entry ∈ tags, IsPlain entry)
    (hread : Images.read bytes off (encodeTags ptag tags).length = encodeTags ptag tags)
    (hsize : off + (encodeTags ptag tags).length ≤ size) :
    ∃ entries, Entries size bytes off ptag entries (off + (encodeTags ptag tags).length)
        (lastTag ptag tags) ∧
      entries.map Entry.tagData = tags := by
  induction tags generalizing off ptag with
  | nil => exact ⟨[], Entries.nil off ptag, rfl⟩
  | cons entry rest ih =>
      obtain ⟨tag, data⟩ := entry
      have hentry : IsPlain (tag, data) := hplain _ List.mem_cons_self
      have hdsize := four_le_dsize (tagOf tag)
      have hdata : data.length = (tagOf tag).dsize - 4 := hentry.length_eq
      simp only [encodeTags] at hread hsize ⊢
      obtain ⟨hfront, hback⟩ := read_parts hread
      obtain ⟨hword, hbody⟩ := read_parts hfront
      have htag : tagAt bytes off ptag = tag := tagAt_eq hword
      have hlength : (beBytes (tag ^^^ ptag) ++ data).length = (tagOf tag).dsize := by
        rw [List.length_append, length_beBytes, hdata]
        omega
      rw [List.length_append, hlength] at hsize ⊢
      rw [hlength] at hback
      have hsize' : off + (tagOf tag).dsize + (encodeTags tag rest).length ≤ size := by omega
      obtain ⟨entries, hentries, htags⟩ := ih
        (fun entry hmem => hplain entry (List.mem_cons_of_mem _ hmem)) hback hsize'
      refine ⟨entryAt bytes off tag :: entries, ?_, ?_⟩
      · rw [← Nat.add_assoc]
        have hcons : IsEntry size off (tagAt bytes off ptag) := by
          rw [htag]
          exact ⟨hentry.valid, by omega, hentry.type_ne⟩
        have hrest : Entries size bytes (off + (tagOf (tagAt bytes off ptag)).dsize)
            (tagAt bytes off ptag) entries
            (off + (tagOf tag).dsize + (encodeTags tag rest).length) (lastTag tag rest) := by
          rw [htag]
          exact hentries
        have hall := Entries.cons hcons hrest
        rw [htag] at hall
        exact hall
      · have hread' : (entryAt bytes off tag).tagData = (tag, data) := by
          simp only [Entry.tagData, entryAt, ← hdata]
          exact congrArg (Prod.mk tag) hbody
        rw [List.map_cons, hread', htags]

/-! ## Attributes -/

/-- The data of an attribute, before the commit touches the device. -/
def LfsMattr.data (attr : LfsMattr) (store : Store) : List Octet :=
  match attr.buffer with
  | .memory data => data.take ((tagOf attr.tag).dsize - 4)
  | .disk block off => Images.read (store.bytes block) off ((tagOf attr.tag).dsize - 4)

/-- The tag that an attribute is written as. -/
def LfsMattr.tagData (attr : LfsMattr) (store : Store) : TagData :=
  (attr.tag &&& 0x7fffffff, attr.data store)

/-- The data does not come from where the commit is being written. -/
def LfsMattr.Outside (attr : LfsMattr) (block : Word) (low : ℕ) : Prop :=
  match attr.buffer with
  | .memory _ => True
  | .disk source off => source ≠ block ∨ off + ((tagOf attr.tag).dsize - 4) ≤ low

/-- The state after writing `tags`. -/
def advance (state : Store × LfsCommit) (tags : List TagData) : Store × LfsCommit :=
  (state.1.prog state.2.block state.2.off (encodeTags state.2.ptag tags),
    { state.2 with
      off := state.2.off + (encodeTags state.2.ptag tags).length
      ptag := lastTag state.2.ptag tags
      crc := lfsCrc state.2.crc (encodeTags state.2.ptag tags) })

section

variable {store store' : Store} {commit commit' : LfsCommit} {state state' : Store × LfsCommit}
  {block : Word} {data more : List Octet} {attr : LfsMattr} {attrs : List LfsMattr} {low : ℕ}

@[simp]
theorem Store.prog_cfg : (store.prog block off data).cfg = store.cfg := rfl

@[simp]
theorem Store.prog_order : (store.prog block off data).order = store.order := rfl

@[simp]
theorem Store.prog_blockCount : (store.prog block off data).blockCount = store.blockCount := rfl

@[simp]
theorem Store.prog_bytes_self :
    (store.prog block off data).bytes block = Images.write (store.bytes block) off data := by
  simp [Store.prog]

theorem Store.prog_bytes_of_ne {other : Word} (hne : other ≠ block) :
    (store.prog block off data).bytes other = store.bytes other := by
  simp [Store.prog, hne]

@[simp]
theorem Store.prog_nil : store.prog block off [] = store := by
  have hwrite : Images.write (store.bytes block) off [] = store.bytes block := by
    funext address
    simp [Images.write]
  rw [Store.prog, hwrite, Function.update_eq_self]

/-- Programming on behind what has been programmed. -/
theorem Store.prog_prog :
    (store.prog block off data).prog block (off + data.length) more =
      store.prog block off (data ++ more) := by
  have hbytes : Images.write ((store.prog block off data).bytes block) (off + data.length) more =
      Images.write (store.bytes block) off (data ++ more) := by
    rw [Store.prog_bytes_self, Images.write_append]
  rw [Store.prog, hbytes]
  simp only [Store.prog, Function.update_idem]

@[simp]
theorem advance_nil : advance state [] = state := by
  simp [advance, encodeTags, lastTag, lfsCrc]

theorem advance_append (more : List TagData) :
    advance (advance state tags) more = advance state (tags ++ more) := by
  simp only [advance, encodeTags_append, lastTag_append, Store.prog_prog, lfsCrc_append,
    List.length_append, Nat.add_assoc]

/-- The byte-wise copy programs the bytes of its source. -/
theorem copyFromDisk_ok {size source : ℕ}
    (hcopy : copyFromDisk block size source (store, commit) = .ok state')
    (houtside : block ≠ commit.block ∨ source + size ≤ commit.off) :
    state' = lfsDirCommitprog store commit (Images.read (store.bytes block) source size) := by
  induction size generalizing source store commit with
  | zero =>
      cases hcopy
      simp [lfsDirCommitprog, Images.read, lfsCrc]
  | succ size ih =>
      rw [copyFromDisk] at hcopy
      cases hread : store.read block source 1 with
      | none =>
          rw [hread] at hcopy
          cases hcopy
      | some dat =>
          rw [hread] at hcopy
          have hdat : dat = Images.read (store.bytes block) source 1 := by
            rw [Store.read] at hread
            split at hread
            · cases hread
            · exact (Option.some.inj hread).symm
          have hone : dat.length = 1 := by rw [hdat, Images.length_read]
          have hrest := ih hcopy (houtside.imp_right fun hle => by
            simp only [hone]
            omega)
          have hsame : Images.read ((store.prog commit.block commit.off dat).bytes block)
              (source + 1) size = Images.read (store.bytes block) (source + 1) size := by
            obtain hne | hle := houtside
            · rw [Store.prog_bytes_of_ne hne]
            · by_cases hblock : block = commit.block
              · subst hblock
                rw [Store.prog_bytes_self, Images.read_write_before (by omega)]
              · rw [Store.prog_bytes_of_ne hblock]
          rw [hrest]
          simp only [lfsDirCommitprog, hsame, Store.prog_prog, Nat.add_comm size 1,
            Images.read_add, ← hdat, lfsCrc_append, List.length_append, Nat.add_assoc]

/-- An attribute is programmed as its tag and data. -/
theorem lfsDirCommitattr_ok (hcommit : lfsDirCommitattr state attr = .ok state')
    (houtside : attr.Outside state.2.block state.2.off) :
    state' = advance state [attr.tagData state.1] ∧
      state.2.off + (tagOf attr.tag).dsize ≤ state.2.stop ∧
      (attr.data state.1).length = (tagOf attr.tag).dsize - 4 := by
  obtain ⟨store, commit⟩ := state
  have hdsize := four_le_dsize (tagOf attr.tag)
  rw [lfsDirCommitattr] at hcommit
  simp only [ByteOrder.bytes_be] at hcommit
  split at hcommit
  · cases hcommit
  · rename_i hfits
    have hstop : commit.off + (tagOf attr.tag).dsize ≤ commit.stop := Nat.not_lt.mp hfits
    simp only at houtside
    have hword : lfsDirCommitprog store commit
        (beBytes ((attr.tag &&& 0x7fffffff) ^^^ commit.ptag)) =
        (store.prog commit.block commit.off (beBytes ((attr.tag &&& 0x7fffffff) ^^^ commit.ptag)),
          { commit with
            crc := lfsCrc commit.crc (beBytes ((attr.tag &&& 0x7fffffff) ^^^ commit.ptag))
            off := commit.off + 4 }) := rfl
    have hdone : ∀ data : List Octet,
        setPtag attr.tag (lfsDirCommitprog
          (store.prog commit.block commit.off (beBytes ((attr.tag &&& 0x7fffffff) ^^^ commit.ptag)))
          { commit with
            crc := lfsCrc commit.crc (beBytes ((attr.tag &&& 0x7fffffff) ^^^ commit.ptag))
            off := commit.off + 4 } data) =
          advance (store, commit) [(attr.tag &&& 0x7fffffff, data)] := by
      intro data
      have hfour : commit.off + 4 =
          commit.off + (beBytes ((attr.tag &&& 0x7fffffff) ^^^ commit.ptag)).length := rfl
      simp only [setPtag, lfsDirCommitprog, advance, encodeTags, lastTag, List.append_nil,
        List.foldl_cons, List.foldl_nil, lfsCrc_append, List.length_append, hfour, Store.prog_prog,
        Nat.add_assoc]
    rw [hword] at hcommit
    simp only at hcommit
    cases hbuffer : attr.buffer with
    | memory data =>
        simp only [hbuffer] at hcommit
        split at hcommit
        · cases hcommit
        · rename_i hlength
          have hdata : attr.data store = data.take ((tagOf attr.tag).dsize - 4) := by
            rw [LfsMattr.data, hbuffer]
          refine ⟨?_, hstop, ?_⟩
          · rw [← Except.ok.inj hcommit, hdone, LfsMattr.tagData, hdata]
          · rw [hdata, List.length_take]
            omega
    | disk block source =>
        simp only [hbuffer] at hcommit
        simp only [LfsMattr.Outside, hbuffer] at houtside
        have hdata : attr.data store =
            Images.read (store.bytes block) source ((tagOf attr.tag).dsize - 4) := by
          rw [LfsMattr.data, hbuffer]
        cases hcopy : copyFromDisk block ((tagOf attr.tag).dsize - 4) source
            (store.prog commit.block commit.off
              (beBytes ((attr.tag &&& 0x7fffffff) ^^^ commit.ptag)),
            { commit with
              crc := lfsCrc commit.crc (beBytes ((attr.tag &&& 0x7fffffff) ^^^ commit.ptag))
              off := commit.off + 4 }) with
        | error e =>
            rw [hcopy] at hcommit
            cases hcommit
        | ok copied =>
            rw [hcopy] at hcommit
            have hprog := copyFromDisk_ok hcopy (houtside.imp_right fun hle => by
              simp only
              omega)
            have hsame : Images.read ((store.prog commit.block commit.off
                (beBytes ((attr.tag &&& 0x7fffffff) ^^^ commit.ptag))).bytes block) source
                  ((tagOf attr.tag).dsize - 4) =
                Images.read (store.bytes block) source ((tagOf attr.tag).dsize - 4) := by
              by_cases hblock : block = commit.block
              · subst hblock
                have hle := houtside.resolve_left (not_not_intro rfl)
                rw [Store.prog_bytes_self, Images.read_write_before hle]
              · rw [Store.prog_bytes_of_ne hblock]
            refine ⟨?_, hstop, ?_⟩
            · rw [← Except.ok.inj hcommit, hprog, hsame, hdone, LfsMattr.tagData, hdata]
            · rw [hdata, Images.length_read]

theorem LfsMattr.Outside.mono {off : ℕ} (houtside : attr.Outside block low) (hlow : low ≤ off) :
    attr.Outside block off := by
  cases hbuffer : attr.buffer with
  | memory data =>
      rw [LfsMattr.Outside, hbuffer]
      trivial
  | disk source off' =>
      rw [LfsMattr.Outside, hbuffer] at houtside ⊢
      exact houtside.imp_right fun hle => Nat.le_trans hle hlow

/-- The commit itself leaves the data of its attributes alone. -/
theorem LfsMattr.data_advance (houtside : attr.Outside state.2.block state.2.off) :
    attr.data (advance state tags).1 = attr.data state.1 := by
  cases hbuffer : attr.buffer with
  | memory data => simp only [LfsMattr.data, hbuffer]
  | disk source off =>
      simp only [LfsMattr.data, LfsMattr.Outside, hbuffer] at houtside ⊢
      by_cases hblock : source = state.2.block
      · subst hblock
        have hle := houtside.resolve_left (not_not_intro rfl)
        simp only [advance, Store.prog_bytes_self]
        exact Images.read_write_before hle
      · simp only [advance, Store.prog_bytes_of_ne hblock]

/-- The attributes of a commit are programmed as their encoding. -/
theorem commitAttrs_ok (hcommit : attrs.foldlM lfsDirCommitattr state = .ok state')
    (houtside : ∀ attr ∈ attrs, attr.Outside state.2.block state.2.off) :
    state' = advance state (attrs.map fun attr => attr.tagData state.1) ∧
      ∀ attr ∈ attrs, (attr.data state.1).length = (tagOf attr.tag).dsize - 4 := by
  induction attrs generalizing state with
  | nil =>
      cases hcommit
      refine ⟨?_, fun attr hmem => absurd hmem List.not_mem_nil⟩
      rw [List.map_nil, advance_nil]
  | cons attr rest ih =>
      rw [List.foldlM_cons] at hcommit
      cases hattr : lfsDirCommitattr state attr with
      | error e =>
          rw [hattr] at hcommit
          cases hcommit
      | ok middle =>
          rw [hattr] at hcommit
          obtain ⟨hmiddle, -, hlength⟩ :=
            lfsDirCommitattr_ok hattr (houtside attr List.mem_cons_self)
          have hrest : ∀ other ∈ rest, other.Outside state.2.block state.2.off :=
            fun other hmem => houtside other (List.mem_cons_of_mem _ hmem)
          have houtside' : ∀ other ∈ rest, other.Outside middle.2.block middle.2.off := by
            intro other hmem
            rw [hmiddle]
            exact (hrest other hmem).mono (Nat.le_add_right _ _)
          have hdata : ∀ other ∈ rest, other.data middle.1 = other.data state.1 := by
            intro other hmem
            rw [hmiddle, LfsMattr.data_advance (hrest other hmem)]
          obtain ⟨hstate', hlengths⟩ := ih hcommit houtside'
          constructor
          · have htags : (rest.map fun other => other.tagData middle.1) =
                rest.map fun other => other.tagData state.1 := by
              apply List.map_congr_left
              intro other hmem
              rw [LfsMattr.tagData, LfsMattr.tagData, hdata other hmem]
            rw [hstate', htags, hmiddle, advance_append, List.map_cons, List.singleton_append]
          · intro other hmem
            obtain rfl | hmem' := List.mem_cons.mp hmem
            · exact hlength
            · rw [← hdata other hmem']
              exact hlengths other hmem'

end

end Littlefs.Disk
