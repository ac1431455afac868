import Littlefs.Disk.Headers
import Littlefs.Disk.RoundTrip

/-!
# The byte order of the host

Both writers put the same bytes on the device under either byte order.  A fetch
does not: it converts the revision twice and the tail not at all.  So a big-endian
host gets back what it committed when the revision and the words of the tail read
the same in both orders, and otherwise it does not.
-/

namespace Littlefs.Disk

open Words

variable {store store' : Store} {order : ByteOrder} {lookup : Lookup} {pair front : WordPair}
  {dir dir' : LfsMdir} {commit commit' : LfsCommit} {old commits : List LogCommit}
  {tags more : List TagData} {attr : LfsMattr} {attrs : List LfsMattr} {entries : List Entry}

/-- A revision, a split flag and a tail. -/
abbrev Header := Word × Bool × WordPair

/-- What a fetch makes of the header of a block. -/
def misread (order : ByteOrder) (header : Header) : Header :=
  (order.le header.1, unconverted order header.2)

/-- The words of a header are the same in both byte orders. -/
def Header.Symmetric (header : Header) : Prop :=
  swapBytes header.1 = header.1 ∧ swapBytes header.2.2.1 = header.2.2.1 ∧
    swapBytes header.2.2.2 = header.2.2.2

theorem misread_eq_self_iff (order : ByteOrder) (header : Header) :
    misread order header = header ↔ order = .little ∨ header.Symmetric := by
  obtain ⟨rev, split, first, second⟩ := header
  simp only [misread, unconverted, Prod.mk.injEq, true_and, ByteOrder.le_eq_self_iff,
    Header.Symmetric]
  tauto

def LfsMdir.header (dir : LfsMdir) : Header := (dir.rev, dir.split, dir.tail)

namespace Writer

def relocated : Writer → Bool
  | append _ => false
  | compact _ relocated _ _ => relocated

/-- What the directory in memory says after the commit. -/
def kept (store : Store) (dir : LfsMdir) : Writer → Header
  | append attrs =>
      (dir.rev, lastTail (attrs.map fun attr => attr.tagData store) (dir.split, dir.tail))
  | compact _ _ _ _ => (dir.rev + 1, dir.split, dir.tail)

/-- What its block says after the commit.  A null tail is not written. -/
def said (store : Store) (dir : LfsMdir) : Writer → Header
  | append attrs =>
      (store.revision dir.pair.1,
        lastTail (attrs.map fun attr => attr.tagData store) (store.tailOn dir.pair.1))
  | compact _ _ _ _ =>
      (dir.rev + 1,
        if lfsPairIsnull dir.tail.toPair then (false, (nullWord, nullWord))
        else (dir.split, dir.tail))

end Writer

/-- A directory that can be written in this way.  `lfs_dir_compact` lets only names,
structures and user attributes through. -/
inductive Ready (store : Store) (pair : WordPair) (dir : LfsMdir) : Writer → Prop
  | append {attrs : List LfsMattr} (hcurrent : Current store pair dir)
      (hroom : 8 ≤ (tagOf dir.etag).dsize) (hattrs : Committable attrs dir.pair.1 dir.off)
      (htails : ∀ attr ∈ attrs, attr.TailWords)
      (hmoves : ∀ attr ∈ attrs, (tagOf attr.tag).type ≠ tyMovestate) :
      Ready store pair dir (.append attrs)
  | compact {blank : ℕ → Octet} {relocated : Bool} {attrs : List LfsMattr} {count : ℕ}
      (hpair : dir.pair = pair ∨ dir.pair = pair.swap) (hne : dir.pair.1 ≠ dir.pair.2)
      (hrev : Newer (dir.rev + 1) (store.revision dir.pair.1) ∨ store.log dir.pair.1 = [])
      (houtside : ∀ attr ∈ attrs, attr.Outside dir.pair.2 4)
      (hfiltered : ∀ attr ∈ attrs, (tagOf attr.tag).type < 0x400) :
      Ready store pair dir (.compact blank relocated attrs count)

/-- The same bytes are written under both byte orders, and a fetch gives back what the
commit left in memory, with the change of the global state that it carried. -/
structure Survives (store store' : Store) (pair : WordPair) (dir dir' : LfsMdir)
    (writer : Writer) : Prop where
  bytes : ∀ order, ∃ other, writer.run (store.on order) dir = .ok (other, dir') ∧
    other.bytes = store'.bytes
  fetched : ∃ fetched, store'.fetchmatch Query.fetch pair = some fetched ∧
    fetched.dir.header = dir'.header ∧
    ∀ delta, lfsDirGetgstate store dir (store.delta writer.relocated) = .ok delta →
      lfsDirGetgstate store' fetched.dir {} = .ok delta

theorem Ready.bytes {writer : Writer} (hready : Ready store pair dir writer)
    (hrun : writer.run store dir = .ok (store', dir')) (order : ByteOrder) :
    ∃ other, writer.run (store.on order) dir = .ok (other, dir') ∧ other.bytes = store'.bytes := by
  refine ⟨store'.on order, ?_, rfl⟩
  cases hready with
  | append hcurrent hroom hattrs htails hmoves =>
      rw [Writer.run] at hrun ⊢
      rw [lfsDirAppend_on order store dir fun attr hmem htype => (htails attr hmem htype).1, hrun]
      rfl
  | compact hpair hne hrev houtside hfiltered =>
      rw [Writer.run] at hrun ⊢
      rw [lfsDirCompact_on, hrun]
      rfl

@[simp]
theorem LfsGstate.zero_xor (gstate : LfsGstate) : LfsGstate.xor {} gstate = gstate := by
  cases gstate
  simp [LfsGstate.xor]

theorem LfsGstate.eq_of_iszero {gstate : LfsGstate} (hzero : gstate.iszero = true) :
    gstate = {} := by
  obtain ⟨tag, first, second⟩ := gstate
  simp only [LfsGstate.iszero, Bool.and_eq_true, beq_iff_eq] at hzero
  obtain ⟨⟨rfl, rfl⟩, rfl⟩ := hzero
  rfl

theorem Rereads.settled (hreads : Rereads store pair front old tags commit) (relocated : Bool) :
    Rereads (store.settled relocated) pair front old tags commit :=
  ⟨hreads.chosen, hreads.inRange, hreads.block_eq, hreads.log_eq, hreads.ends, hreads.dvd,
    hreads.invalid, hreads.ccrc⟩

theorem Current.holds (hcurrent : Current store pair dir) (hgeometry : Geometry store.cfg)
    (hroom : 8 ≤ (tagOf dir.etag).dsize) : Holds store dir := by
  apply Holds.mk hgeometry hcurrent.inRange.1 hcurrent.log_ne hcurrent.off_eq hcurrent.etag_eq
  rw [hcurrent.off_eq]
  apply (store.log_chain dir.pair.1).extent_le hcurrent.log_ne
  rw [hcurrent.etag_eq] at hroom
  exact hroom

/-- The global state of a directory while a commit behind it is being written. -/
theorem Holds.getgstate {stop : ℕ} (hholds : Holds store dir) (gstate : LfsGstate) :
    lfsDirGetgstate (advance (store, dir.appended stop) tags).1 dir gstate =
      .ok (gstate.xor (storedGstate (store.tags dir.pair.1))) := by
  have hsize : 4 ≤ store.cfg.blockSize := Nat.le_trans (by norm_num) hholds.geometry.block_le
  have hwrites : WritesWithin store (advance (store, dir.appended stop) tags).1 dir.pair.1 dir.off
      (dir.off + (encodeTags dir.etag tags).length) := WritesWithin.prog (le_refl _) (le_refl _)
  have hchain : Chain store.cfg.blockSize
      ((advance (store, dir.appended stop) tags).1.bytes dir.pair.1) Place.first
        (store.log dir.pair.1) := by
    apply (store.log_chain dir.pair.1).congr
    intro address hlt
    exact (hwrites.before address (lt_of_lt_of_le hlt hholds.extent_le)).symm
  exact lfsDirGetgstate_eq (hwrites.readable.mpr hholds.readable) hsize hchain hholds.off_eq
    hholds.etag_eq gstate

/-- The parts of an outcome that the byte order has to do with. -/
structure Outcome (store store' : Store) (pair : WordPair) (dir dir' : LfsMdir)
    (writer : Writer) : Prop where
  kept : dir'.header = writer.kept store dir
  fetched : ∃ fetched, store'.fetchmatch Query.fetch pair = some fetched ∧
    fetched.dir.header = misread store.order (writer.said store dir) ∧
    ∀ delta, lfsDirGetgstate store dir (store.delta writer.relocated) = .ok delta →
      lfsDirGetgstate store' fetched.dir {} = .ok delta

theorem type_movestateAttr {delta : LfsGstate} :
    (tagOf (movestateAttr order delta).tag).type1 ≠ tyTail := by
  have htype : (tagOf movestateTag).type1 ≠ tyTail := by decide
  exact htype

/-- A tag has the fields of its attribute. -/
theorem exists_attr {entry : TagData}
    (hmem : entry ∈ attrs.map fun attr => attr.tagData store) :
    ∃ attr ∈ attrs, tagOf entry.1 = tagOf attr.tag := by
  obtain ⟨attr, hattr, rfl⟩ := List.mem_map.mp hmem
  exact ⟨attr, hattr, tagOf_clear attr.tag⟩

theorem lastTail_attrs_append {more : List LfsMattr} {tail : Bool × WordPair}
    (hnotail : ∀ attr ∈ more, (tagOf attr.tag).type1 ≠ tyTail) :
    lastTail ((attrs ++ more).map fun attr => attr.tagData store) tail =
      lastTail (attrs.map fun attr => attr.tagData store) tail := by
  rw [List.map_append, lastTail_append]
  apply lastTail_of_ne
  intro entry hmem
  obtain ⟨attr, hattr, hsame⟩ := exists_attr hmem
  rw [hsame]
  exact hnotail attr hattr

theorem not_isMovestate_of_attrs (hmoves : ∀ attr ∈ attrs, (tagOf attr.tag).type ≠ tyMovestate) :
    ∀ entry ∈ attrs.map fun attr => attr.tagData store, ¬isMovestate entry = true := by
  intro entry hmem hmove
  obtain ⟨attr, hattr, hsame⟩ := exists_attr hmem
  apply hmoves attr hattr
  rw [← hsame]
  exact isMovestate_iff.mp hmove

theorem append_outcome (hgeometry : Geometry store.cfg) (hrange : store.InRange pair)
    (hready : Ready store pair dir (.append attrs))
    (hrun : lfsDirAppend store dir attrs = .ok (store', dir')) :
    Outcome store store' pair dir dir' (.append attrs) := by
  have hsize : 4 ≤ store.cfg.blockSize := Nat.le_trans (by norm_num) hgeometry.block_le
  obtain ⟨hcurrent, hroom, hattrs, htails, hmoves⟩ := hready
  have hholds := hcurrent.holds hgeometry hroom
  obtain ⟨more, sealed, commit', dir₁, state, hloop, hcommitted, hmore, hwrite, rfl, rfl⟩ :=
    lfsDirAppend_ok hrun
  have hstate := (commitAttrs_ok hcommitted fun attr hmem => (hattrs attr hmem).2).1
  have hplace := attrs_place hloop
  have hdelta : state.1.delta false = store.delta false := by
    rw [hstate]
    rfl
  have hgstate : ∀ gstate, lfsDirGetgstate state.1 dir₁ gstate =
      .ok (gstate.xor (storedGstate (store.tags dir.pair.1))) := by
    intro gstate
    rw [hplace, hstate]
    exact hholds.getgstate gstate
  have hstored : lfsDirGetgstate store dir (store.delta false) =
      .ok ((store.delta false).xor (storedGstate (store.tags dir.pair.1))) :=
    lfsDirGetgstate_eq hholds.readable hsize (store.log_chain dir.pair.1) hholds.off_eq
      hholds.etag_eq _
  rw [hdelta, hgstate] at hmore
  have hall : Committable (attrs ++ more) dir.pair.1 dir.off := by
    apply hattrs.append
    obtain ⟨-, rfl⟩ | ⟨delta, -, rfl⟩ := hmore
    · exact fun attr hmem => absurd hmem List.not_mem_nil
    · exact committable_movestate _ _ _
  obtain ⟨hwrites, hreads⟩ := append_rereads hgeometry hrange hcurrent hroom
    (fun attr hmem => (hall attr hmem).1) (fun attr hmem => (hall attr hmem).2) hwrite
  have hnotail : ∀ attr ∈ more, (tagOf attr.tag).type1 ≠ tyTail := by
    obtain ⟨-, rfl⟩ | ⟨delta, -, rfl⟩ := hmore
    · exact fun attr hmem => absurd hmem List.not_mem_nil
    · intro attr hmem
      rw [List.mem_singleton.mp hmem]
      exact type_movestateAttr
  have height : ∀ entry ∈ (attrs ++ more).map fun attr => attr.tagData store,
      (tagOf entry.1).type1 = tyTail → (tagOf entry.1).size = 8 := by
    intro entry hmem
    obtain ⟨attr, hattr, hsame⟩ := exists_attr hmem
    rw [hsame]
    intro htype
    obtain hfirst | hlast := List.mem_append.mp hattr
    · exact (htails attr hfirst htype).2
    · exact absurd htype (hnotail attr hlast)
  obtain ⟨fetched, hfetch, hrev, htail, hback⟩ := (hreads.settled false).fetched
    (hwrites.cfg_eq ▸ hsize) (hwrites.inRange hrange) height
  have hfour : 4 ≤ dir.off := by
    rw [hcurrent.off_eq]
    exact le_trans (Nat.le_add_right _ _) (store.log_chain dir.pair.1).length_le
  constructor
  · rw [Writer.kept, ← foldlM_attr_tail store htails hloop, hplace]
    rfl
  · refine ⟨fetched, hfetch, ?_, ?_⟩
    · have hrevision : sealed.revision dir.pair.1 = store.revision dir.pair.1 :=
        hwrites.revision_eq (Or.inr hfour)
      have hlast : lastTail ((attrs ++ more).map fun attr => attr.tagData store)
          (store.tailOn dir.pair.1) = _ := lastTail_attrs_append hnotail
      have horder : (sealed.settled false).order = store.order := hwrites.order_eq
      rw [LfsMdir.header, hrev, htail, horder, misread, Writer.said]
      exact Prod.ext (congrArg store.order.le hrevision) (congrArg (unconverted store.order) hlast)
    · intro delta hdelta'
      obtain rfl := Except.ok.inj (hstored.symm.trans hdelta')
      rw [hback, LfsGstate.zero_xor, List.map_append]
      obtain ⟨hzero, rfl⟩ | ⟨delta, hdelta, rfl⟩ := hmore
      · rw [List.map_nil, List.append_nil,
          storedGstate_append_of_ne (not_isMovestate_of_attrs hmoves),
          LfsGstate.eq_of_iszero hzero, LfsGstate.zero_xor]
        rfl
      · rw [List.map_cons, List.map_nil, ← List.append_assoc, storedGstate_movestate]
        exact hdelta.symm

theorem tailStep_tailAttr (store : Store) (order : ByteOrder) (dir : LfsMdir)
    (tail : Bool × WordPair) :
    tailStep tail ((tailAttr order dir).tagData store) = (dir.split, dir.tail) := by
  have hsplit : ∀ split : Bool, (tagOf (tailTag split &&& 0x7fffffff)).type1 = tyTail ∧
      ((tagOf (tailTag split &&& 0x7fffffff)).chunk &&& 1 != 0) = split ∧
      (tagOf (tailTag split)).dsize - 4 = 8 := by decide
  obtain ⟨htype, hchunk, hdsize⟩ := hsplit dir.split
  have hbytes : WordPair.bytes order dir.tail = leBytes dir.tail.1 ++ leBytes dir.tail.2 := by
    rw [WordPair.bytes, ByteOrder.bytes_le, ByteOrder.bytes_le]
  have hdata : (tailAttr order dir).data store = leBytes dir.tail.1 ++ leBytes dir.tail.2 := by
    simp only [LfsMattr.data, tailAttr, hdsize, hbytes]
    rfl
  have hdrop : (leBytes dir.tail.1 ++ leBytes dir.tail.2).drop 4 = leBytes dir.tail.2 := rfl
  rw [LfsMattr.tagData, hdata]
  refine (tailStep_tail htype).trans ?_
  rw [hdrop, ofLeBytes_leBytes_append, ofLeBytes_leBytes]
  exact Prod.ext hchunk rfl

theorem lastTail_tailAttrs (store : Store) (order : ByteOrder) (dir : LfsMdir)
    (tail : Bool × WordPair) :
    lastTail ((tailAttrs order dir).map fun attr => attr.tagData store) tail =
      if lfsPairIsnull dir.tail.toPair then tail else (dir.split, dir.tail) := by
  rw [tailAttrs]
  split
  · rfl
  · exact tailStep_tailAttr store order dir tail

theorem type_tailAttrs {attr : LfsMattr} (hmem : attr ∈ tailAttrs order dir) :
    (tagOf attr.tag).type ≠ tyMovestate ∧ (tagOf attr.tag).size = 8 := by
  rw [tailAttrs] at hmem
  split at hmem
  · exact absurd hmem List.not_mem_nil
  · have hsplit : ∀ split : Bool, (tagOf (tailTag split)).type ≠ tyMovestate ∧
        (tagOf (tailTag split)).size = 8 := by decide
    rw [List.mem_singleton.mp hmem]
    exact hsplit dir.split

/-- What `lfs_dir_compact` lets through is no CRC tag, no tail and no global state. -/
theorem types_of_filtered {tag : Tag} (hfiltered : tag.type < 0x400) :
    tag.type2 ≠ tyCcrc ∧ tag.type1 ≠ tyTail ∧ tag.type ≠ tyMovestate := by
  have htypes : ∀ type : Fin 0x400, type.val &&& 0x780 ≠ tyCcrc ∧ type.val &&& 0x700 ≠ tyTail ∧
      type.val ≠ tyMovestate := by decide +kernel
  exact htypes ⟨tag.type, hfiltered⟩

section

variable {blank : ℕ → Octet} {block other : Word}

theorem Store.erase_bytes (hne : other ≠ block) :
    (store.erase block blank).bytes other = store.bytes other := Function.update_of_ne hne _ _

theorem Store.erase_log (hne : other ≠ block) :
    (store.erase block blank).log other = store.log other := by
  rw [Store.log, Store.log, Store.erase_bytes hne]
  rfl

theorem Store.erase_read (hne : other ≠ block) (off size : ℕ) :
    (store.erase block blank).read other off size = store.read other off size := by
  rw [Store.read, Store.read, Store.erase_bytes hne]
  rfl

theorem Store.erase_revision (hne : other ≠ block) :
    (store.erase block blank).revision other = store.revision other := by
  rw [Store.revision, Store.revision, Store.erase_read hne]

/-- A compaction looks for the global state in the block that it leaves alone. -/
theorem fresh_getgstate {rev : Word} {stop : ℕ} {fresh state : Store × LfsCommit}
    (hne : dir.pair.1 ≠ dir.pair.2)
    (hfresh : freshCommit (store.erase dir.pair.2 blank) dir.pair.2 rev stop = fresh)
    (hstate : state = advance fresh tags) (relocated : Bool) :
    lfsDirGetgstate state.1 { dir with rev := rev } (state.1.delta relocated) =
      lfsDirGetgstate store dir (store.delta relocated) := by
  subst hfresh
  subst hstate
  have hbytes :
      (advance (freshCommit (store.erase dir.pair.2 blank) dir.pair.2 rev stop) tags).1.bytes
        dir.pair.1 = store.bytes dir.pair.1 :=
    ((Store.prog_bytes_of_ne hne).trans (Store.prog_bytes_of_ne hne)).trans (Store.erase_bytes hne)
  apply lfsDirGetgstate_congr
  · intro off size
    rw [Store.read, Store.read, hbytes]
    rfl
  · rfl

end

theorem compact_outcome {blank : ℕ → Octet} {relocated : Bool} {count : ℕ}
    (hgeometry : Geometry store.cfg) (hrange : store.InRange pair)
    (hready : Ready store pair dir (.compact blank relocated attrs count))
    (hrun : lfsDirCompact store dir blank relocated attrs count = .ok (store', dir')) :
    Outcome store store' pair dir dir' (.compact blank relocated attrs count) := by
  have hsize : 4 ≤ store.cfg.blockSize := Nat.le_trans (by norm_num) hgeometry.block_le
  cases hready with
  | compact hpair hne hrev houtside hfiltered =>
  obtain ⟨more, sealed, commit', state, hcommitted, ⟨delta, hdelta, hmore⟩, hwrite, rfl, rfl⟩ :=
    lfsDirCompact_ok hrun
  have hblocks : ∀ block, block = pair.1 ∨ block = pair.2 →
      block = dir.pair.1 ∨ block = dir.pair.2 := by
    intro block hblock
    obtain hsame | hswap := hpair
    · rw [hsame]
      exact hblock
    · rw [hswap]
      exact hblock.symm
  have hsecond : dir.pair.2 = pair.1 ∨ dir.pair.2 = pair.2 := by
    obtain hsame | hswap := hpair
    · exact Or.inr (by rw [hsame])
    · exact Or.inl (by rw [hswap]; rfl)
  have hold : Newer (dir.rev + 1) ((store.erase dir.pair.2 blank).revision dir.pair.1) ∨
      (store.erase dir.pair.2 blank).log dir.pair.1 = [] := by
    rw [Store.erase_log hne, Store.erase_revision hne]
    exact hrev
  have hattrs : Committable attrs dir.pair.2 4 :=
    fun attr hmem => ⟨(types_of_filtered (hfiltered attr hmem)).1, houtside attr hmem⟩
  have hall : Committable (attrs ++ tailAttrs store.order dir ++ more) dir.pair.2 4 := by
    apply (hattrs.append (committable_tailAttrs _ _ _)).append
    rw [hmore]
    split
    · exact fun attr hmem => absurd hmem List.not_mem_nil
    · exact committable_movestate _ _ _
  have hnotail : ∀ attr ∈ more, (tagOf attr.tag).type1 ≠ tyTail := by
    rw [hmore]
    split
    · exact fun attr hmem => absurd hmem List.not_mem_nil
    · intro attr hmem
      rw [List.mem_singleton.mp hmem]
      exact type_movestateAttr
  obtain ⟨hwrites, hrevision, front, -, hfront, hreads⟩ := fresh_rereads
    (show Geometry (store.erase dir.pair.2 blank).cfg from hgeometry)
    (show (store.erase dir.pair.2 blank).InRange pair from hrange) hsecond (by
      intro other hother hother'
      obtain rfl := (hblocks other hother).resolve_right hother'
      exact hold) (fun attr hmem => (hall attr hmem).1) (fun attr hmem => (hall attr hmem).2) hwrite
  generalize hfresh : freshCommit (store.erase dir.pair.2 blank) dir.pair.2 (dir.rev + 1)
    store.cfg.commitEnd = fresh at hreads hcommitted
  have height : ∀ entry ∈ (attrs ++ tailAttrs store.order dir ++ more).map
      fun attr => attr.tagData fresh.1,
      (tagOf entry.1).type1 = tyTail → (tagOf entry.1).size = 8 := by
    intro entry hmem
    obtain ⟨attr, hattr, hsame⟩ := exists_attr hmem
    rw [hsame]
    intro htype
    obtain hfirst | hlast := List.mem_append.mp hattr
    · obtain hgiven | htail := List.mem_append.mp hfirst
      · exact absurd htype (types_of_filtered (hfiltered attr hgiven)).2.1
      · exact (type_tailAttrs htail).2
    · exact absurd htype (hnotail attr hlast)
  obtain ⟨fetched, hfetch, hrev', htail, hback⟩ := (hreads.settled relocated).fetched
    (hwrites.cfg_eq ▸ hsize) (hwrites.inRange hrange) height
  constructor
  · rfl
  · refine ⟨fetched, hfetch, ?_, ?_⟩
    · have hword : (sealed.settled relocated).revision front.1 = dir.rev + 1 := by
        rw [hfront]
        exact hrevision
      have hlast : lastTail ((attrs ++ tailAttrs store.order dir ++ more).map
            fun attr => attr.tagData fresh.1) (false, (nullWord, nullWord)) =
          if lfsPairIsnull dir.tail.toPair then (false, (nullWord, nullWord))
          else (dir.split, dir.tail) := by
        have hgiven : lastTail ((([] : List LfsMattr) ++ attrs).map fun attr =>
            attr.tagData fresh.1) (false, (nullWord, nullWord)) = _ :=
          lastTail_attrs_append fun attr hmem => (types_of_filtered (hfiltered attr hmem)).2.1
        rw [List.nil_append] at hgiven
        rw [lastTail_attrs_append hnotail, List.map_append, lastTail_append, hgiven,
          lastTail_tailAttrs]
        rfl
      have horder : (sealed.settled relocated).order = store.order := hwrites.order_eq
      rw [LfsMdir.header, hrev', htail, horder, misread, Writer.said, hword]
      exact Prod.ext rfl (congrArg (unconverted store.order) hlast)
    · intro delta' hdelta'
      have hoff : fresh.2.off = 4 ∧ fresh.2.block = dir.pair.2 := by
        rw [← hfresh, freshCommit_off]
        exact ⟨rfl, rfl⟩
      have hstate := (commitAttrs_ok hcommitted (by
        intro attr hmem
        rw [hoff.1, hoff.2]
        exact (hall attr (List.mem_append_left _ hmem)).2)).1
      have hstored : lfsDirGetgstate store dir (store.delta relocated) = .ok delta :=
        (fresh_getgstate hne hfresh hstate relocated).symm.trans hdelta
      obtain rfl := Except.ok.inj (hstored.symm.trans hdelta')
      have hnomove : ∀ attr ∈ attrs ++ tailAttrs store.order dir,
          (tagOf attr.tag).type ≠ tyMovestate := by
        intro attr hmem
        obtain hgiven | htail := List.mem_append.mp hmem
        · exact (types_of_filtered (hfiltered attr hgiven)).2.2
        · exact (type_tailAttrs htail).1
      rw [hback, LfsGstate.zero_xor, @List.map_append _ _ _ _ more, ← List.append_assoc]
      have hblank : storedGstate (((([] : List LogCommit).flatMap LogCommit.entries).map
          Entry.tagData) ++ (attrs ++ tailAttrs store.order dir).map
            fun attr => attr.tagData fresh.1) = {} :=
        (storedGstate_append_of_ne (not_isMovestate_of_attrs hnomove)).trans rfl
      rw [hmore]
      split
      · rename_i hzero
        rw [List.map_nil, List.append_nil, hblank, LfsGstate.eq_of_iszero hzero]
      · rw [List.map_singleton, storedGstate_movestate]

theorem Ready.outcome {writer : Writer} (hgeometry : Geometry store.cfg)
    (hrange : store.InRange pair) (hready : Ready store pair dir writer)
    (hrun : writer.run store dir = .ok (store', dir')) :
    Outcome store store' pair dir dir' writer := by
  cases writer with
  | append attrs => exact append_outcome hgeometry hrange hready hrun
  | compact blank relocated attrs count => exact compact_outcome hgeometry hrange hready hrun

theorem Outcome.survives_iff {writer : Writer}
    (houtcome : Outcome store store' pair dir dir' writer)
    (hready : Ready store pair dir writer) (hrun : writer.run store dir = .ok (store', dir')) :
    Survives store store' pair dir dir' writer ↔
      writer.kept store dir = misread store.order (writer.said store dir) := by
  obtain ⟨hkept, fetched, hfetch, hheader, hdelta⟩ := houtcome
  rw [← hkept, ← hheader]
  constructor
  · rintro ⟨-, other, hother, hsame, -⟩
    obtain rfl := Option.some.inj (hfetch.symm.trans hother)
    exact hsame.symm
  · intro hsame
    exact ⟨hready.bytes hrun, fetched, hfetch, hsame.symm, hdelta⟩

/-- A commit survives exactly when the directory in memory agrees with what the host
misreads of the block; where memory and block agree, when the host is little-endian
or the words are the same in both orders. -/
theorem commit_survives_iff {writer : Writer} (hgeometry : Geometry store.cfg)
    (hrange : store.InRange pair) (hready : Ready store pair dir writer)
    (hrun : writer.run store dir = .ok (store', dir')) :
    (Survives store store' pair dir dir' writer ↔
        writer.kept store dir = misread store.order (writer.said store dir)) ∧
      (writer.kept store dir = writer.said store dir →
        (Survives store store' pair dir dir' writer ↔
          store.order = .little ∨ (writer.said store dir).Symmetric)) := by
  have hiff := (hready.outcome hgeometry hrange hrun).survives_iff hready hrun
  refine ⟨hiff, fun hagree => ?_⟩
  rw [hiff, hagree, ← misread_eq_self_iff]
  exact eq_comm

/-- A new directory in front of another one. -/
def linkedDir : LfsMdir where
  pair := (1, 0)
  rev := 0
  off := 0
  etag := nullWord
  tail := (2, 3)

/-- Its first commit on an erased device. -/
def linkedWriter : Writer := .compact (fun _ => 0xff) false [] 0

def linkedRun (order : ByteOrder) : Except Fault (Store × LfsMdir) :=
  linkedWriter.run ((blockStore []).on order) linkedDir

theorem linkedWriter_ready (order : ByteOrder) :
    Ready ((blockStore []).on order) (0, 1) linkedDir linkedWriter := by
  have hlog : (blockStore []).log 1 = [] := by decide +kernel
  apply Ready.compact
  · exact Or.inr rfl
  · decide
  · exact Or.inr hlog
  · exact fun attr hmem => absurd hmem List.not_mem_nil
  · exact fun attr hmem => absurd hmem List.not_mem_nil

theorem linkedRun_ok (order : ByteOrder) : ∃ written, linkedRun order = .ok written := by
  have hok : ∀ order, (linkedRun order).isOk = true := by
    intro order
    cases order <;> decide +kernel
  cases hrun : linkedRun order with
  | error fault =>
      have herror := hok order
      rw [hrun] at herror
      cases herror
  | ok written => exact ⟨written, rfl⟩

/-- A little-endian host gets the directory back. -/
theorem linkedRun_little : ∃ written, linkedRun .little = .ok written ∧
    Survives ((blockStore []).on .little) written.1 (0, 1) linkedDir written.2 linkedWriter := by
  obtain ⟨written, hrun⟩ := linkedRun_ok .little
  refine ⟨written, hrun, ?_⟩
  have hiff := commit_survives_iff (blockStore_geometry []) (blockStore_inRange [])
    (linkedWriter_ready .little) hrun
  exact (hiff.2 (by decide)).mpr (Or.inl rfl)

/-- A big-endian host reads revision 1 as 0x01000000, and the tail in front of blocks 2
and 3 as one in front of blocks 0x02000000 and 0x03000000. -/
theorem linkedRun_big : ∃ written, linkedRun .big = .ok written ∧
    Ready ((blockStore []).on .big) (0, 1) linkedDir linkedWriter ∧
    ¬Survives ((blockStore []).on .big) written.1 (0, 1) linkedDir written.2 linkedWriter := by
  obtain ⟨written, hrun⟩ := linkedRun_ok .big
  have hgeometry : Geometry ((blockStore []).on .big).cfg := blockStore_geometry []
  have hrange : ((blockStore []).on .big).InRange (0, 1) := blockStore_inRange []
  have houtcome := (linkedWriter_ready .big).outcome hgeometry hrange hrun
  refine ⟨written, hrun, linkedWriter_ready .big, ?_⟩
  rw [houtcome.survives_iff (linkedWriter_ready .big) hrun]
  decide +kernel

end Littlefs.Disk
