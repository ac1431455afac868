import Littlefs.Disk.Writing

/-!
# The header of a block

What a fetch makes of the revision and of the tails of a block.  The revision goes
through the conversion of the host a second time and the tail goes through none,
so both come back as `le` of the words on disk.
-/

namespace Littlefs.Disk

open Words

variable {store store' : Store} {order : ByteOrder} {lookup : Lookup} {pair front : WordPair}
  {dir dir' : LfsMdir} {commit commit' : LfsCommit} {old commits : List LogCommit}
  {tags more : List TagData} {attr : LfsMattr} {attrs : List LfsMattr} {entries : List Entry}

/-! ## What a fetch reads of a block -/

theorem foldl_commit_rev (order : ByteOrder) (commits : List LogCommit) (belief : Belief) :
    (commits.foldl (Belief.commit order lookup) belief).dir.rev = belief.dir.rev := by
  induction commits generalizing belief with
  | nil => rfl
  | cons commit rest ih => exact ih _

theorem foldl_commit_tail (order : ByteOrder) (belief : Belief) (hne : commits ≠ []) :
    (commits.foldl (Belief.commit order lookup) belief).dir.tail =
        (commits.foldl (Belief.commit order lookup) belief).temp.tail ∧
      (commits.foldl (Belief.commit order lookup) belief).dir.split =
        (commits.foldl (Belief.commit order lookup) belief).temp.split := by
  obtain ⟨front, last, rfl⟩ : ∃ front last, commits = front ++ [last] :=
    ⟨commits.dropLast, commits.getLast hne, (List.dropLast_append_getLast hne).symm⟩
  simp only [List.foldl_append, List.foldl_cons, List.foldl_nil]
  exact ⟨rfl, rfl⟩

/-- What the scan gathers over all entries of a block. -/
def Store.gathered (store : Store) (block : Word) : Temp :=
  ((store.log block).flatMap LogCommit.entries).foldl (Temp.entry store.order Lookup.fetch) {}

/-- A fetch reads the revision and the tail of the chosen block. -/
theorem Store.fetch_reads (hsize : 4 ≤ store.cfg.blockSize) (hrange : store.InRange pair)
    (hchosen : store.chosen pair = some front) :
    ∃ fetched, store.fetchmatch Query.fetch pair = some fetched ∧
      Current store pair fetched.dir ∧ fetched.dir.pair = front ∧
      fetched.dir.rev = store.order.le (store.revision front.1) ∧
      fetched.dir.tail = (store.gathered front.1).tail ∧
      fetched.dir.split = (store.gathered front.1).split := by
  have hclean : ∀ front, store.chosen pair = some front →
      Lookup.fetch.Clean ((store.log front.1).flatMap LogCommit.entries) :=
    fun front _ => Lookup.fetch_clean chain_completeCommits
  obtain ⟨-, hnone⟩ | ⟨front', hchosen', hrange', hsome⟩ :=
    Store.fetchmatch_cases hsize hrange hclean
  · rw [hchosen] at hnone
    cases hnone
  · obtain rfl : front = front' := Option.some.inj (hchosen.symm.trans hchosen')
    have hcurrent := Store.fetched_current hsize hrange hclean hsome
    have hpublished := Store.scanFront_published front hrange'.1 hsize (hclean front hchosen)
    have hdir : (store.scanFront Query.fetch front).1.dir =
        (store.believed Lookup.fetch front).dir := congrArg Prod.fst hpublished
    have hpair : (store.scanFront Query.fetch front).1.dir.pair = front := by
      rw [hdir, believed_pair]
    have hlog : store.log front.1 ≠ [] := by
      have hlog := hcurrent.log_ne
      rwa [show (store.conclude (store.scanFront Lookup.fetch.query front).1
        (store.scanFront Lookup.fetch.query front).2).dir.pair = front from hpair] at hlog
    have htail : (store.believed Lookup.fetch front).dir.tail =
          (store.believed Lookup.fetch front).temp.tail ∧
        (store.believed Lookup.fetch front).dir.split =
          (store.believed Lookup.fetch front).temp.split := foldl_commit_tail store.order _ hlog
    have htemp : (store.believed Lookup.fetch front).temp = store.gathered front.1 := by
      rw [Store.believed, foldl_commit_temp]
      rfl
    rw [htemp] at htail
    refine ⟨_, hsome, hcurrent, hpair, ?_, ?_, ?_⟩
    · calc (store.scanFront Query.fetch front).1.dir.rev
          = (store.believed Lookup.fetch front).dir.rev := by rw [hdir]
        _ = store.order.le (store.revision front.1) := by
            rw [Store.believed, foldl_commit_rev]
            rfl
    · exact (congrArg LfsMdir.tail hdir).trans htail.1
    · exact (congrArg LfsMdir.split hdir).trans htail.2

/-! ## Tails -/

/-- What a tag does to the split flag and the tail, in the words of the disk. -/
def tailStep (tail : Bool × WordPair) : TagData → Bool × WordPair
  | (tag, data) =>
      if (tagOf tag).type1 = tyTail then
        ((tagOf tag).chunk &&& 1 != 0, (ofLeBytes data, ofLeBytes (data.drop 4)))
      else
        tail

/-- The split flag and the tail that `tags` leave. -/
def lastTail (tags : List TagData) (tail : Bool × WordPair) : Bool × WordPair :=
  tags.foldl tailStep tail

theorem tailStep_tail {tag : Word} {data : List Octet} {tail : Bool × WordPair}
    (htail : (tagOf tag).type1 = tyTail) :
    tailStep tail (tag, data) =
      ((tagOf tag).chunk &&& 1 != 0, (ofLeBytes data, ofLeBytes (data.drop 4))) := if_pos htail

theorem tailStep_of_ne {tag : Word} {data : List Octet} {tail : Bool × WordPair}
    (htail : (tagOf tag).type1 ≠ tyTail) : tailStep tail (tag, data) = tail := if_neg htail

theorem lastTail_append (tags more : List TagData) (tail : Bool × WordPair) :
    lastTail (tags ++ more) tail = lastTail more (lastTail tags tail) := List.foldl_append

theorem lastTail_of_ne {tail : Bool × WordPair}
    (hne : ∀ entry ∈ tags, (tagOf entry.1).type1 ≠ tyTail) : lastTail tags tail = tail := by
  induction tags with
  | nil => rfl
  | cons entry rest ih =>
      rw [lastTail, List.foldl_cons, tailStep_of_ne (hne entry List.mem_cons_self)]
      exact ih fun other hmem => hne other (List.mem_cons_of_mem _ hmem)

/-- An entry as a fetch looks at it: its tag and the eight bytes behind. -/
def Entry.glance (entry : Entry) : TagData := (entry.tag, entry.window)

/-- A pair of words that is read without a conversion. -/
def unconverted (order : ByteOrder) (tail : Bool × WordPair) : Bool × WordPair :=
  (tail.1, (order.le tail.2.1, order.le tail.2.2))

theorem ofBytes_eq_le (order : ByteOrder) {buffer : List Octet} (hlength : 4 ≤ buffer.length) :
    order.ofBytes buffer = order.le (ofLeBytes buffer) := by
  rw [← le_ofBytes order hlength, ByteOrder.le_le]

/-- The scan keeps the words of the last tail as the host reads them. -/
theorem foldl_entry_tail (order : ByteOrder) (temp : Temp) (tail : Bool × WordPair)
    (hwindow : ∀ entry ∈ entries, entry.window.length = 8)
    (htemp : (temp.split, temp.tail) = unconverted order tail) :
    ((entries.foldl (Temp.entry order lookup) temp).split,
        (entries.foldl (Temp.entry order lookup) temp).tail) =
      unconverted order (lastTail (entries.map Entry.glance) tail) := by
  induction entries generalizing temp tail with
  | nil => exact htemp
  | cons entry rest ih =>
      have hselect : ∀ (temp : Temp) (tag : Word) (res : Ordering),
          ((temp.select tag res).split, (temp.select tag res).tail) = (temp.split, temp.tail) := by
        intro temp tag res
        unfold Temp.select
        split
        · rfl
        · split
          · rfl
          · split <;> rfl
      have hentry : ((Temp.entry order lookup temp entry).split,
          (Temp.entry order lookup temp entry).tail) =
            ((temp.note order entry).split, (temp.note order entry).tail) := by
        unfold Temp.entry
        split
        · exact hselect _ _ _
        · rfl
      have hlength := hwindow entry List.mem_cons_self
      rw [List.foldl_cons, List.map_cons]
      apply ih _ _ fun other hmem => hwindow other (List.mem_cons_of_mem _ hmem)
      rw [hentry]
      by_cases htail : (tagOf entry.tag).type1 = tyTail
      · have hname : ¬(tagOf entry.tag).type1 = tyName := by
          rw [htail]
          decide
        have hsplice : ¬(tagOf entry.tag).type1 = tySplice := by
          rw [htail]
          decide
        have hdrop : 4 ≤ (entry.window.drop 4).length := by
          rw [List.length_drop]
          omega
        rw [Entry.glance, tailStep_tail htail]
        simp only [Temp.note, if_neg hname, if_neg hsplice, if_pos htail, Temp.setTail,
          unconverted, ofBytes_eq_le order (by omega : 4 ≤ entry.window.length),
          ofBytes_eq_le order hdrop]
      · rw [Entry.glance, tailStep_of_ne htail, ← htemp, Temp.note]
        split
        · unfold Temp.name
          split <;> rfl
        · split <;> rfl

theorem Chain.window_length {size : ℕ} {bytes : ℕ → Octet} {place : Place}
    (hchain : Chain size bytes place commits) :
    ∀ entry ∈ commits.flatMap LogCommit.entries, entry.window.length = 8 := by
  intro entry hmem
  obtain ⟨off, -, hentry⟩ := hchain.mem hmem
  rw [hentry]
  exact Images.length_read

/-- What a block says about the tail, in the words of the disk. -/
def Store.tailOn (store : Store) (block : Word) : Bool × WordPair :=
  lastTail (((store.log block).flatMap LogCommit.entries).map Entry.glance)
    (false, (nullWord, nullWord))

theorem le_nullWord (order : ByteOrder) : order.le nullWord = nullWord := by
  cases order <;> decide

theorem Store.gathered_tail (store : Store) (block : Word) :
    ((store.gathered block).split, (store.gathered block).tail) =
      unconverted store.order (store.tailOn block) := by
  have hchain : Chain store.cfg.blockSize (store.bytes block) Place.first (store.log block) :=
    chain_completeCommits
  apply foldl_entry_tail
  · exact hchain.window_length
  · simp only [unconverted, le_nullWord]

/-- Tail tags of eight bytes are what a fetch looks at. -/
theorem lastTail_glance {bytes : ℕ → Octet} {tail : Bool × WordPair}
    (hat : ∀ entry ∈ entries, ∃ off, entry = entryAt bytes off entry.tag)
    (height : ∀ entry ∈ entries, (tagOf entry.tag).type1 = tyTail → (tagOf entry.tag).size = 8) :
    lastTail (entries.map Entry.glance) tail = lastTail (entries.map Entry.tagData) tail := by
  induction entries generalizing tail with
  | nil => rfl
  | cons entry rest ih =>
      have hrest : ∀ tail : Bool × WordPair,
          lastTail (rest.map Entry.glance) tail = lastTail (rest.map Entry.tagData) tail :=
        fun tail => ih (fun other hmem => hat other (List.mem_cons_of_mem _ hmem))
          (fun other hmem => height other (List.mem_cons_of_mem _ hmem))
      rw [List.map_cons, List.map_cons, lastTail, lastTail, List.foldl_cons, List.foldl_cons]
      by_cases htail : (tagOf entry.tag).type1 = tyTail
      · have hwindow : entry.window = entry.data := by
          obtain ⟨off, hentry⟩ := hat entry List.mem_cons_self
          have hdsize : (tagOf entry.tag).dsize - 4 = 8 := by
            rw [Tag.dsize, Tag.isdelete, height entry List.mem_cons_self htail]
            rfl
          rw [hentry]
          simp only [entryAt, hdsize]
        rw [Entry.glance, Entry.tagData, hwindow]
        exact hrest _
      · rw [Entry.glance, Entry.tagData, tailStep_of_ne htail, tailStep_of_ne htail]
        exact hrest _

/-- A tail attribute has its pair in memory and says so. -/
def LfsMattr.TailWords (attr : LfsMattr) : Prop :=
  (tagOf attr.tag).type1 = tyTail → attr.buffer.isMemory = true ∧ (tagOf attr.tag).size = 8

/-- An attribute changes the tail in memory as its tag changes the one on disk. -/
theorem LfsMdir.attr_tail (store : Store) (htail : attr.TailWords)
    (hattr : dir.attr order attr = .ok dir') :
    (dir'.split, dir'.tail) = tailStep (dir.split, dir.tail) (attr.tagData store) := by
  have hother (htype : (tagOf attr.tag).type1 ≠ tyTail) :
      tailStep (dir.split, dir.tail) (attr.tagData store) = (dir.split, dir.tail) := by
    apply tailStep_of_ne
    rw [tagOf_clear]
    exact htype
  rw [LfsMdir.attr] at hattr
  split at hattr
  · rename_i htype
    cases hattr
    apply (hother _).symm
    rw [Tag.type1, show (tagOf attr.tag).type = tyCreate from htype]
    decide
  · split at hattr
    · rename_i htype
      cases hattr
      apply (hother _).symm
      rw [Tag.type1, show (tagOf attr.tag).type = tyDelete from htype]
      decide
    · split at hattr
      · rename_i htype
        obtain ⟨hmemory, hsize⟩ := htail htype
        have hclear : (tagOf (attr.tag &&& 0x7fffffff)).type1 = tyTail := by
          rw [tagOf_clear, htype]
        cases hbuffer : attr.buffer with
        | disk block off =>
            rw [hbuffer] at hmemory
            cases hmemory
        | memory data =>
            rw [hbuffer, Buffer.words] at hattr
            by_cases hlength : data.length = 8
            · rw [if_pos hlength] at hattr
              cases hattr
              have hdsize : (tagOf attr.tag).dsize - 4 = 8 := by
                rw [Tag.dsize, Tag.isdelete, hsize]
                rfl
              have hdata : attr.data store = data := by
                rw [LfsMattr.data, hbuffer, hdsize, ← hlength]
                exact List.take_length
              have hdrop : 4 ≤ (data.drop 4).length := by
                rw [List.length_drop]
                omega
              rw [LfsMattr.tagData, tailStep_tail hclear, hdata, tagOf_clear,
                le_ofBytes order (by omega : 4 ≤ data.length), le_ofBytes order hdrop]
            · rw [if_neg hlength] at hattr
              cases hattr
      · rename_i htype
        cases hattr
        exact (hother htype).symm

/-- The loop over the attributes leaves the tail that their tags leave on disk. -/
theorem foldlM_attr_tail (store : Store) (htails : ∀ attr ∈ attrs, attr.TailWords)
    (hloop : attrs.foldlM (LfsMdir.attr order) dir = .ok dir') :
    (dir'.split, dir'.tail) =
      lastTail (attrs.map fun attr => attr.tagData store) (dir.split, dir.tail) := by
  induction attrs generalizing dir with
  | nil =>
      cases hloop
      rfl
  | cons attr rest ih =>
      rw [List.foldlM_cons] at hloop
      obtain ⟨middle, hattr, hrest⟩ := bind_ok hloop
      rw [ih (fun other hmem => htails other (List.mem_cons_of_mem _ hmem)) hrest,
        LfsMdir.attr_tail store (htails attr List.mem_cons_self) hattr]
      rfl

/-! ## What a fetch of the commit reads -/

theorem forwardTags_type {store : Store} {block : Word} {stop : ℕ} {entry : TagData}
    (hmem : entry ∈ store.forwardTags block stop) : entry.1 = fcrcTag := by
  rw [Store.forwardTags] at hmem
  split at hmem
  · rw [List.mem_singleton.mp hmem]
  · exact absurd hmem List.not_mem_nil

theorem storedGstate_append_of_ne (hne : ∀ entry ∈ more, ¬isMovestate entry = true) :
    storedGstate (tags ++ more) = storedGstate tags := by
  have hnone : more.reverse.find? isMovestate = none :=
    List.find?_eq_none.mpr fun entry hmem => hne entry (List.mem_reverse.mp hmem)
  rw [storedGstate, storedGstate, List.reverse_append, List.find?_append, hnone, Option.none_or]

theorem LfsGstate.bytes_eq (order : ByteOrder) (gstate : LfsGstate) :
    gstate.bytes order =
      leBytes gstate.tag ++ leBytes gstate.pair.1 ++ leBytes gstate.pair.2 := by
  simp only [LfsGstate.bytes, ByteOrder.bytes_le]

theorem LfsGstate.ofBytes_bytes (order : ByteOrder) (gstate : LfsGstate) :
    LfsGstate.ofBytes .little (padded 12 (gstate.bytes order)) = gstate := by
  have hbytes := LfsGstate.bytes_eq order gstate
  have hlength : (gstate.bytes order).length = 12 := by
    rw [hbytes]
    rfl
  have hpadded : padded 12 (gstate.bytes order) = gstate.bytes order := by
    rw [padded, hlength, Nat.sub_self, List.replicate_zero, List.append_nil, ← hlength,
      List.take_length]
  have hmiddle : (gstate.bytes order).drop 4 = leBytes gstate.pair.1 ++ leBytes gstate.pair.2 := by
    rw [hbytes]
    rfl
  have hlast : (gstate.bytes order).drop 8 = leBytes gstate.pair.2 := by
    rw [hbytes]
    rfl
  rw [hpadded, LfsGstate.ofBytes, hmiddle, hlast, hbytes, List.append_assoc]
  simp only [ByteOrder.ofBytes, ByteOrder.le, ofLeBytes_leBytes_append, ofLeBytes_leBytes]

/-- The global state that was written last is the stored one. -/
theorem storedGstate_movestate (store : Store) (order : ByteOrder) (delta : LfsGstate) :
    storedGstate (tags ++ [(movestateAttr order delta).tagData store]) = delta := by
  have hclear : movestateTag &&& 0x7fffffff = movestateTag := clear_eq_self isvalid_movestateTag
  have hdelete : ¬(tagOf movestateTag).isdelete = true := by decide
  have hdsize : (tagOf movestateTag).dsize - 4 = 12 := by decide
  have hlength : (delta.bytes order).length = 12 := by
    rw [LfsGstate.bytes_eq]
    rfl
  have hdata : (movestateAttr order delta).tagData store = (movestateTag, delta.bytes order) := by
    simp only [LfsMattr.tagData, LfsMattr.data, movestateAttr, hclear, hdsize, ← hlength,
      List.take_length]
  have htype : (tagOf movestateTag).type = tyMovestate := by decide
  have hmove : isMovestate (movestateTag, delta.bytes order) = true := isMovestate_iff.mpr htype
  rw [hdata, storedGstate, List.reverse_append, List.reverse_singleton, List.singleton_append,
    List.find?_cons_of_pos hmove]
  simp only [if_neg hdelete, LfsGstate.ofBytes_bytes]

/-- A fetch of a written block: the revision is converted a second time, the tail never,
and the global state as it should be. -/
theorem Rereads.fetched (hreads : Rereads store pair front old tags commit)
    (hsize : 4 ≤ store.cfg.blockSize) (hrange : store.InRange pair)
    (height : ∀ entry ∈ tags, (tagOf entry.1).type1 = tyTail → (tagOf entry.1).size = 8) :
    ∃ fetched, store.fetchmatch Query.fetch pair = some fetched ∧
      fetched.dir.rev = store.order.le (store.revision front.1) ∧
      (fetched.dir.split, fetched.dir.tail) = unconverted store.order
        (lastTail tags (lastTail ((old.flatMap LogCommit.entries).map Entry.glance)
          (false, (nullWord, nullWord)))) ∧
      ∀ gstate, lfsDirGetgstate store fetched.dir gstate = .ok (gstate.xor
        (storedGstate ((old.flatMap LogCommit.entries).map Entry.tagData ++ tags))) := by
  obtain ⟨fetched, hfetch, hcurrent, hpair, hrev, htail, hsplit⟩ :=
    Store.fetch_reads hsize hrange hreads.chosen
  obtain ⟨commits, -, hlog, htags⟩ := hreads.log_eq
  have hforward : ∀ entry ∈ store.forwardTags front.1 commit.off,
      (tagOf entry.1).type1 ≠ tyTail ∧ ¬isMovestate entry = true := by
    intro entry hmem
    have hfcrc := forwardTags_type hmem
    rw [isMovestate_iff, hfcrc]
    decide
  refine ⟨fetched, hfetch, hrev, ?_, ?_⟩
  · have hnew : lastTail ((commits.flatMap LogCommit.entries).map Entry.glance)
          (lastTail ((old.flatMap LogCommit.entries).map Entry.glance)
            (false, (nullWord, nullWord))) =
        lastTail ((commits.flatMap LogCommit.entries).map Entry.tagData)
          (lastTail ((old.flatMap LogCommit.entries).map Entry.glance)
            (false, (nullWord, nullWord))) := by
      apply lastTail_glance
      · intro entry hmem
        have hwhole : entry ∈ (store.log front.1).flatMap LogCommit.entries := by
          rw [hlog, List.flatMap_append]
          exact List.mem_append_right _ hmem
        obtain ⟨off, -, hat⟩ := (store.log_chain front.1).mem hwhole
        exact ⟨off, hat⟩
      · intro entry hmem hentry
        have hwritten : entry.tagData ∈ tags ++ store.forwardTags front.1 commit.off :=
          htags ▸ List.mem_map_of_mem hmem
        obtain htag | hfcrc := List.mem_append.mp hwritten
        · exact height entry.tagData htag hentry
        · exact absurd hentry (hforward entry.tagData hfcrc).1
    calc (fetched.dir.split, fetched.dir.tail)
        = ((store.gathered front.1).split, (store.gathered front.1).tail) := by
          rw [hsplit, htail]
      _ = unconverted store.order (store.tailOn front.1) := store.gathered_tail front.1
      _ = _ := by
          rw [Store.tailOn, hlog, List.flatMap_append, List.map_append, lastTail_append, hnew,
            htags, lastTail_append,
            lastTail_of_ne fun entry hmem => (hforward entry hmem).1]
  · intro gstate
    have hdirblock : fetched.dir.pair.1 = front.1 := by rw [hpair]
    have hoff := hcurrent.off_eq
    have hetag := hcurrent.etag_eq
    rw [lfsDirGetgstate_eq hcurrent.inRange.1 hsize (store.log_chain fetched.dir.pair.1) hoff hetag,
      hdirblock, show ((store.log front.1).flatMap LogCommit.entries).map Entry.tagData =
        store.tags front.1 from rfl, hreads.tags_eq,
      storedGstate_append_of_ne fun entry hmem => (hforward entry hmem).2]

end Littlefs.Disk
