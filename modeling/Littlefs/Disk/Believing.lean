import Littlefs.Disk.Commits
import Littlefs.Disk.Lookups

/-!
# The scan believes complete commits

`Belief` is what a scan holds after a chain of complete commits, computed from the
commits alone.  A pass at the beginning of a chain gets to its end with that
belief, and whatever follows the chain publishes nothing.
-/

namespace Littlefs.Disk

open Words

/-- What the modification tags do to the temporary values. -/
def Temp.note (order : ByteOrder) (temp : Temp) (entry : Entry) : Temp :=
  if (tagOf entry.tag).type1 = tyName then temp.name (tagOf entry.tag)
  else if (tagOf entry.tag).type1 = tySplice then temp.splice entry.tag
  else if (tagOf entry.tag).type1 = tyTail then
    temp.setTail order (tagOf entry.tag) entry.window
  else temp

/-- What an entry does to the temporary values. -/
def Temp.entry (order : ByteOrder) (lookup : Lookup) (temp : Temp) (entry : Entry) : Temp :=
  if lookup.query.selects entry.tag then
    (temp.note order entry).select entry.tag (lookup.judge entry.tag entry.data)
  else
    temp.note order entry

def Entry.fcrc (order : ByteOrder) (fcrc : Option LfsFcrc) (entry : Entry) : Option LfsFcrc :=
  if (tagOf entry.tag).type3 = tyFcrc then some (LfsFcrc.ofBytes order entry.window) else fcrc

structure Belief where
  temp : Temp := {}
  fcrc : Option LfsFcrc := none
  dir : LfsMdir
  besttag : Word := nullWord
  seed : Word
  deriving DecidableEq, Repr

def Belief.enter (order : ByteOrder) (lookup : Lookup) (belief : Belief) (entries : List Entry) :
    Belief :=
  { belief with
    temp := entries.foldl (Temp.entry order lookup) belief.temp
    fcrc := entries.foldl (Entry.fcrc order) belief.fcrc }

def Belief.publish (order : ByteOrder) (belief : Belief) (crc : Word) (next : Place) : Belief :=
  { belief with
    besttag := belief.temp.besttag
    seed := lfsCrc belief.seed (order.bytes crc)
    dir := { belief.dir with
      off := next.off
      etag := next.ptag
      count := belief.temp.count
      tail := belief.temp.tail
      split := belief.temp.split } }

def Belief.commit (order : ByteOrder) (lookup : Lookup) (belief : Belief) (commit : LogCommit) :
    Belief :=
  (belief.enter order lookup commit.entries).publish order commit.crc commit.next

def Pass.belief (pass : Pass) : Belief where
  temp := pass.temp
  fcrc := pass.fcrc
  dir := pass.dir
  besttag := pass.besttag
  seed := pass.seed

/-- The values that a fetch reports. -/
def Belief.published (belief : Belief) : LfsMdir × Word × Word :=
  (belief.dir, belief.besttag, belief.seed)

/-- The loop is about to read the tag at `place`. -/
structure Store.At (store : Store) (pass : Pass) (place : Place) : Prop where
  off_eq : pass.off + (tagOf pass.ptag).dsize = place.off
  ptag_eq : pass.ptag = place.ptag
  crc_eq : pass.crc = lfsCrc 0xffffffff
    (Images.read (store.bytes pass.dir.pair.1) place.start (place.off - place.start))
  start_le : place.start ≤ place.off
  readable : store.Readable pass.dir.pair.1

/-- No tag that the lookup asks about has the size that marks a deletion. -/
def Lookup.Clean (lookup : Lookup) (entries : List Entry) : Prop :=
  ∀ entry ∈ entries, lookup.query.selects entry.tag = true → (tagOf entry.tag).isdelete = false

instance (lookup : Lookup) (entries : List Entry) : Decidable (lookup.Clean entries) :=
  inferInstanceAs (Decidable (∀ entry ∈ entries, _))

variable {store : Store} {lookup : Lookup} {query : Query} {pass pass' : Pass} {place : Place}
  {bytes : ℕ → Octet} {start off off' fuel : ℕ} {tag ptag ptag' : Word} {entries : List Entry}
  {commit : LogCommit} {commits : List LogCommit}

theorem lfsCrc_read_add (hstart : start ≤ off) (size : ℕ) :
    lfsCrc (lfsCrc 0xffffffff (Images.read bytes start (off - start)))
        (Images.read bytes off size) =
      lfsCrc 0xffffffff (Images.read bytes start (off + size - start)) := by
  have hsplit : off + size - start = off - start + size := by omega
  have hmiddle : start + (off - start) = off := by omega
  rw [hsplit, Images.read_add, hmiddle, lfsCrc_append]

theorem size_eq_of_not_isdelete {tag : Tag} (hdelete : tag.isdelete = false) :
    tag.size = tag.dsize - 4 := by
  simp [Tag.dsize, hdelete]

theorem data_le (tag : Tag) : tag.dsize - 4 ≤ tag.size := by
  unfold Tag.dsize
  split <;> omega

/-! ## One turn -/

theorem type1_of_fcrc {tag : Tag} (htype : tag.type3 = tyFcrc) : tag.type1 = 0x500 := by
  have htype' : tag.type = 0x5ff := htype
  rw [Tag.type1, htype']
  rfl

/-- The modification tags, on an entry whose window lies inside the block. -/
theorem Store.note_eq {block : Word} (hblock : store.Readable block)
    (hwindow : off + 12 ≤ store.cfg.blockSize) (temp : Temp) (fcrc : Option LfsFcrc) :
    store.note block off tag temp fcrc =
      some (temp.note store.order (entryAt (store.bytes block) off tag),
        Entry.fcrc store.order fcrc (entryAt (store.bytes block) off tag)) := by
  have hread : store.read block (off + 4) 8 = some (Images.read (store.bytes block) (off + 4) 8) :=
    Store.read_eq hblock (by omega)
  have hother : (tagOf tag).type1 ≠ 0x500 → (tagOf tag).type3 ≠ tyFcrc :=
    fun hne htype => hne (type1_of_fcrc htype)
  simp only [Store.note, Temp.note, Entry.fcrc, entryAt, hread]
  by_cases hname : (tagOf tag).type1 = tyName
  · have hfcrc := hother (by rw [hname]; decide)
    simp only [eq_true hname, eq_false hfcrc, if_true, if_false]
  · by_cases hsplice : (tagOf tag).type1 = tySplice
    · have hfcrc := hother (by rw [hsplice]; decide)
      simp only [eq_false hname, eq_true hsplice, eq_false hfcrc, if_true, if_false]
    · by_cases htail : (tagOf tag).type1 = tyTail
      · have hfcrc := hother (by rw [htail]; decide)
        simp only [eq_false hname, eq_false hsplice, eq_true htail, eq_false hfcrc, if_true,
          if_false]
      · simp only [eq_false hname, eq_false hsplice, eq_false htail, if_false]
        by_cases hfcrc : (tagOf tag).type3 = tyFcrc
        · simp only [eq_true hfcrc, if_true]
        · simp only [eq_false hfcrc, if_false]

theorem Store.answer_eq {block : Word} (hblock : store.Readable block)
    (hsize : off + (tagOf tag).dsize ≤ store.cfg.blockSize)
    (hclean : lookup.query.selects tag = true → (tagOf tag).isdelete = false) (temp : Temp) :
    store.answer lookup.query block off tag
        (temp.note store.order (entryAt (store.bytes block) off tag)) =
      some (temp.entry store.order lookup (entryAt (store.bytes block) off tag)) := by
  by_cases hselects : lookup.query.selects tag = true
  · have hdelete := hclean hselects
    have hdata := size_eq_of_not_isdelete hdelete
    have hdsize := four_le_dsize (tagOf tag)
    have hjudge := lookup.judges store tag block (off + 4) hblock (by omega) hdelete hselects
    simp only [Store.answer, Temp.entry, entryAt, hselects, if_true, hjudge, hdata]
  · simp only [Store.answer, Temp.entry, entryAt, eq_false hselects, if_false]

namespace Store.At

/-- The tag read by a turn. -/
theorem tag_eq (hplace : store.At pass place) (hsize : place.off + 4 ≤ store.cfg.blockSize) :
    store.read pass.dir.pair.1 place.off 4 =
        some (Images.read (store.bytes pass.dir.pair.1) place.off 4) ∧
      ofBeBytes (Images.read (store.bytes pass.dir.pair.1) place.off 4) ^^^ pass.ptag =
        tagAt (store.bytes pass.dir.pair.1) place.off place.ptag := by
  rw [hplace.ptag_eq]
  exact ⟨Store.read_eq hplace.readable hsize, rfl⟩

theorem entry (hplace : store.At pass place) (htag : tagAt (store.bytes pass.dir.pair.1) place.off
      place.ptag = tag)
    (hentry : IsEntry store.cfg.blockSize place.off tag)
    (hwindow : place.off + 12 ≤ store.cfg.blockSize)
    (hclean : lookup.query.selects tag = true → (tagOf tag).isdelete = false) :
    ∃ pass', store.turn lookup.query pass = .next pass' ∧ pass'.off = place.off ∧
      store.At pass' ⟨place.start, place.off + (tagOf tag).dsize, tag⟩ ∧
      pass'.belief = pass.belief.enter store.order lookup
        [entryAt (store.bytes pass.dir.pair.1) place.off tag] := by
  obtain ⟨hread, hword⟩ := hplace.tag_eq (by omega)
  have hdsize := four_le_dsize (tagOf tag)
  have hoff := hplace.off_eq
  have hstart := hplace.start_le
  have hbefore : lfsCrc pass.crc (Images.read (store.bytes pass.dir.pair.1) place.off 4) =
      lfsCrc 0xffffffff (Images.read (store.bytes pass.dir.pair.1) place.start
        (place.off + 4 - place.start)) := by
    rw [hplace.crc_eq, lfsCrc_read_add hstart]
  have hcrc : store.crc pass.dir.pair.1 (place.off + 4) ((tagOf tag).dsize - 4)
      (lfsCrc pass.crc (Images.read (store.bytes pass.dir.pair.1) place.off 4)) =
        (lfsCrc 0xffffffff (Images.read (store.bytes pass.dir.pair.1) place.start
          (place.off + (tagOf tag).dsize - place.start)), true) := by
    have hend : place.off + 4 + ((tagOf tag).dsize - 4) = place.off + (tagOf tag).dsize := by omega
    have hsize := hentry.2.1
    rw [Store.crc_eq hplace.readable (by omega), hbefore, lfsCrc_read_add (by omega), hend]
  have hnote : store.note pass.dir.pair.1 place.off tag pass.temp pass.fcrc = _ :=
    Store.note_eq hplace.readable hwindow pass.temp pass.fcrc
  have hanswer := Store.answer_eq hplace.readable hentry.2.1 hclean pass.temp
  rw [htag] at hword
  refine ⟨{ pass with
    off := place.off
    ptag := tag
    crc := lfsCrc 0xffffffff (Images.read (store.bytes pass.dir.pair.1) place.start
      (place.off + (tagOf tag).dsize - place.start))
    temp := Temp.entry store.order lookup pass.temp
      (entryAt (store.bytes pass.dir.pair.1) place.off tag)
    fcrc := Entry.fcrc store.order pass.fcrc
      (entryAt (store.bytes pass.dir.pair.1) place.off tag) }, ?_, rfl, ?_, rfl⟩
  · have hvalid : ¬¬isvalid tag = true := not_not_intro hentry.1
    have hfits : ¬store.cfg.blockSize < place.off + (tagOf tag).dsize := Nat.not_lt.mpr hentry.2.1
    simp only [Store.turn, hoff, hread, hword, if_neg hvalid, if_neg hfits, if_neg hentry.2.2,
      hcrc, hnote, hanswer]
  · exact ⟨rfl, rfl, rfl, Nat.le_trans hstart (Nat.le_add_right _ _), hplace.readable⟩

theorem closes (hplace : store.At pass place) (query : Query) (entries : List Entry)
    (htag : tagAt (store.bytes pass.dir.pair.1) place.off
      place.ptag = tag)
    (hcloses : Closes store.cfg.blockSize (store.bytes pass.dir.pair.1) place.start place.off tag) :
    ∃ pass', store.turn query pass = .next pass' ∧
      store.At pass' (closed (store.bytes pass.dir.pair.1) place.start entries place.off tag).next ∧
      pass'.belief = pass.belief.publish store.order
        (checksum (store.bytes pass.dir.pair.1) place.start place.off)
        (closed (store.bytes pass.dir.pair.1) place.start entries place.off tag).next := by
  obtain ⟨hvalid, hfits, htype, hsize, hchecksum⟩ := hcloses
  obtain ⟨hread, hword⟩ := hplace.tag_eq (by omega)
  have hoff := hplace.off_eq
  have hcrc : lfsCrc pass.crc (Images.read (store.bytes pass.dir.pair.1) place.off 4) =
      checksum (store.bytes pass.dir.pair.1) place.start place.off := by
    rw [hplace.crc_eq, lfsCrc_read_add hplace.start_le, checksum]
  have hdcrc : store.read pass.dir.pair.1 (place.off + 4) 4 =
      some (Images.read (store.bytes pass.dir.pair.1) (place.off + 4) 4) :=
    Store.read_eq hplace.readable (by omega)
  rw [htag] at hword
  refine ⟨pass.publish store.order place.off tag
    (checksum (store.bytes pass.dir.pair.1) place.start place.off), ?_, ?_, rfl⟩
  · have hvalid' : ¬¬isvalid tag = true := not_not_intro hvalid
    have hfits' : ¬store.cfg.blockSize < place.off + (tagOf tag).dsize := Nat.not_lt.mpr hfits
    have hagree : ¬checksum (store.bytes pass.dir.pair.1) place.start place.off ≠
        ofLeBytes (Images.read (store.bytes pass.dir.pair.1) (place.off + 4) 4) :=
      not_not_intro hchecksum
    simp only [Store.turn, hoff, hread, hword, if_neg hvalid', if_neg hfits', if_pos htype, hdcrc,
      hcrc, if_neg hagree]
  · have hperturb : tagOf (perturb (tagOf tag).chunk tag) = tagOf tag := tagOf_perturb _ tag
    refine ⟨?_, rfl, ?_, le_refl _, hplace.readable⟩
    · simp only [Pass.publish, hperturb, closed]
    · simp only [Pass.publish, closed, Nat.sub_self]
      rfl

/-- A turn that goes on has passed an entry or a CRC tag that closes a commit. -/
theorem next_cases (hplace : store.At pass place)
    (hturn : store.turn query pass = .next pass') :
    Closes store.cfg.blockSize (store.bytes pass.dir.pair.1) place.start place.off
        (tagAt (store.bytes pass.dir.pair.1) place.off place.ptag) ∨
      IsEntry store.cfg.blockSize place.off
          (tagAt (store.bytes pass.dir.pair.1) place.off place.ptag) ∧
        store.At pass' ⟨place.start, place.off + (tagOf (tagAt (store.bytes pass.dir.pair.1)
          place.off place.ptag)).dsize, tagAt (store.bytes pass.dir.pair.1) place.off place.ptag⟩ ∧
        pass'.belief.published = pass.belief.published := by
  have hoff := hplace.off_eq
  have hstart := hplace.start_le
  by_cases hsize : place.off + 4 ≤ store.cfg.blockSize
  · obtain ⟨hread, hword⟩ := hplace.tag_eq hsize
    have hcrc : lfsCrc pass.crc (Images.read (store.bytes pass.dir.pair.1) place.off 4) =
        checksum (store.bytes pass.dir.pair.1) place.start place.off := by
      rw [hplace.crc_eq, lfsCrc_read_add hstart, checksum]
    generalize tagAt (store.bytes pass.dir.pair.1) place.off place.ptag = tag at hword ⊢
    simp only [Store.turn, hoff, hread, hword, hcrc] at hturn
    have hdsize := four_le_dsize (tagOf tag)
    split at hturn
    · cases hturn
    · rename_i hvalid
      split at hturn
      · cases hturn
      · rename_i hfits
        split at hturn
        · rename_i htype
          by_cases hdcrc : place.off + 8 ≤ store.cfg.blockSize
          · rw [Store.read_eq hplace.readable (by omega)] at hturn
            simp only at hturn
            split at hturn
            · cases hturn
            · rename_i hchecksum
              exact Or.inl ⟨not_not.mp hvalid, Nat.not_lt.mp hfits, htype, hdcrc,
                not_not.mp hchecksum⟩
          · rw [Store.read_eq_none (by omega)] at hturn
            cases hturn
        · rename_i htype
          have hend : place.off + 4 + ((tagOf tag).dsize - 4) =
              place.off + (tagOf tag).dsize := by omega
          have hdata : store.crc pass.dir.pair.1 (place.off + 4) ((tagOf tag).dsize - 4)
              (checksum (store.bytes pass.dir.pair.1) place.start place.off) =
                (lfsCrc 0xffffffff (Images.read (store.bytes pass.dir.pair.1) place.start
                  (place.off + (tagOf tag).dsize - place.start)), true) := by
            rw [Store.crc_eq hplace.readable (by omega), checksum, lfsCrc_read_add (by omega), hend]
          simp only [hdata] at hturn
          split at hturn
          · cases hturn
          · split at hturn
            · cases hturn
            · cases hturn
              refine Or.inr ⟨⟨not_not.mp hvalid, Nat.not_lt.mp hfits, htype⟩, ?_, rfl⟩
              exact ⟨rfl, rfl, rfl, Nat.le_trans hstart (Nat.le_add_right _ _), hplace.readable⟩
  · simp only [Store.turn, hoff, Store.read_eq_none (Nat.not_le.mp hsize)] at hturn
    cases hturn

end Store.At

/-! ## Whole commits -/

theorem Store.scan_next (hturn : store.turn query pass = .next pass') :
    store.scan query (fuel + 1) pass = store.scan query fuel pass' := by
  rw [Store.scan, hturn]

/-- The tags that the loop takes up, CRC tags aside, with their data. -/
def Store.taken (store : Store) (query : Query) : ℕ → Pass → List TagData
  | 0, _ => []
  | fuel + 1, pass =>
      match store.turn query pass with
      | .stop _ => []
      | .next pass =>
          if (tagOf pass.ptag).type2 = tyCcrc then
            Store.taken store query fuel pass
          else
            (pass.ptag, Images.read (store.bytes pass.dir.pair.1) (pass.off + 4)
              ((tagOf pass.ptag).dsize - 4)) :: Store.taken store query fuel pass

theorem Store.taken_entry (hturn : store.turn query pass = .next pass')
    (htype : (tagOf pass'.ptag).type2 ≠ tyCcrc) :
    store.taken query (fuel + 1) pass =
      (pass'.ptag, Images.read (store.bytes pass'.dir.pair.1) (pass'.off + 4)
        ((tagOf pass'.ptag).dsize - 4)) :: store.taken query fuel pass' := by
  simp only [Store.taken, hturn, if_neg htype]

theorem Store.taken_crc (hturn : store.turn query pass = .next pass')
    (htype : (tagOf pass'.ptag).type2 = tyCcrc) :
    store.taken query (fuel + 1) pass = store.taken query fuel pass' := by
  simp only [Store.taken, hturn, if_pos htype]

theorem Belief.enter_append (order : ByteOrder) (belief : Belief) (entries more : List Entry) :
    (belief.enter order lookup entries).enter order lookup more =
      belief.enter order lookup (entries ++ more) := by
  simp only [Belief.enter, List.foldl_append]

namespace Store.At

/-- The scan goes past a run of entries. -/
theorem passes_entries (hentries : Entries store.cfg.blockSize bytes off ptag entries off' ptag')
    (hplace : store.At pass ⟨start, off, ptag⟩) (hbytes : store.bytes pass.dir.pair.1 = bytes)
    (hend : off' + 8 ≤ store.cfg.blockSize) (hclean : lookup.Clean entries) :
    ∃ pass', (∀ fuel, store.scan lookup.query (fuel + entries.length) pass =
          store.scan lookup.query fuel pass' ∧
        store.taken lookup.query (fuel + entries.length) pass =
          entries.map Entry.tagData ++ store.taken lookup.query fuel pass') ∧
      store.At pass' ⟨start, off', ptag'⟩ ∧
      pass'.belief = pass.belief.enter store.order lookup entries := by
  induction hentries generalizing pass with
  | nil off ptag => exact ⟨pass, fun fuel => ⟨rfl, rfl⟩, hplace, rfl⟩
  | @cons off off' ptag ptag' rest hentry hrest ih =>
      have hdsize := four_le_dsize (tagOf (tagAt bytes off ptag))
      have hle := hrest.off_le
      have htag : tagAt (store.bytes pass.dir.pair.1) off ptag = tagAt bytes off ptag := by
        rw [hbytes]
      have hwindow : off + 12 ≤ store.cfg.blockSize := by omega
      obtain ⟨middle, hturn, hoff, hmiddle, hbelief⟩ := hplace.entry htag hentry hwindow
        (hclean (entryAt bytes off (tagAt bytes off ptag)) List.mem_cons_self)
      have hdir : middle.dir = pass.dir := congrArg Belief.dir hbelief
      have hptag : middle.ptag = tagAt bytes off ptag := hmiddle.ptag_eq
      have htype : (tagOf middle.ptag).type2 ≠ tyCcrc := by
        rw [hptag]
        exact hentry.2.2
      obtain ⟨pass', hscan, hplace', hbelief'⟩ := ih hmiddle (by rw [hdir, hbytes]) hend
        (fun entry hmem => hclean entry (List.mem_cons_of_mem _ hmem))
      refine ⟨pass', ?_, hplace', ?_⟩
      · intro fuel
        rw [List.length_cons, ← Nat.add_assoc, Store.scan_next hturn,
          Store.taken_entry hturn htype, (hscan fuel).1, (hscan fuel).2, hptag, hoff, hdir, hbytes]
        exact ⟨rfl, rfl⟩
      · rw [hbelief', hbelief, Belief.enter_append, hbytes, List.singleton_append]

/-- The scan believes a complete commit. -/
theorem passes_commit (hcommit : Complete store.cfg.blockSize bytes place commit)
    (hplace : store.At pass place) (hbytes : store.bytes pass.dir.pair.1 = bytes)
    (hclean : lookup.Clean commit.entries) :
    ∃ pass', (∀ fuel, store.scan lookup.query (fuel + (commit.entries.length + 1)) pass =
          store.scan lookup.query fuel pass' ∧
        store.taken lookup.query (fuel + (commit.entries.length + 1)) pass =
          commit.entries.map Entry.tagData ++ store.taken lookup.query fuel pass') ∧
      store.At pass' commit.next ∧
      pass'.belief = pass.belief.commit store.order lookup commit := by
  obtain ⟨hentries, hcloses⟩ := hcommit
  rename_i entries off ptag
  obtain ⟨middle, hscan, hmiddle, hbelief⟩ :=
    passes_entries hentries hplace hbytes hcloses.2.2.2.1 hclean
  have hdir : middle.dir = pass.dir := congrArg Belief.dir hbelief
  rw [← hbytes, ← hdir] at hcloses ⊢
  obtain ⟨pass', hturn, hplace', hbelief'⟩ := hmiddle.closes lookup.query entries rfl hcloses
  have htype : (tagOf pass'.ptag).type2 = tyCcrc := by
    rw [hplace'.ptag_eq, closed, tagOf_perturb]
    exact hcloses.2.2.1
  refine ⟨pass', ?_, hplace', ?_⟩
  · intro fuel
    have hfuel : fuel + (entries.length + 1) = fuel + 1 + entries.length := by omega
    rw [← Store.scan_next hturn, ← Store.taken_crc hturn htype, closed, hfuel]
    exact hscan (fuel + 1)
  · rw [hbelief', hbelief]
    rfl

/-- The scan believes a chain of complete commits. -/
theorem passes_chain (hchain : Chain store.cfg.blockSize bytes place commits)
    (hplace : store.At pass place) (hbytes : store.bytes pass.dir.pair.1 = bytes)
    (hclean : lookup.Clean (commits.flatMap LogCommit.entries)) :
    ∃ turns pass', place.off + 4 * turns ≤ (endFrom place commits).off ∧
      (∀ fuel, store.scan lookup.query (fuel + turns) pass = store.scan lookup.query fuel pass' ∧
        store.taken lookup.query (fuel + turns) pass =
          (commits.flatMap LogCommit.entries).map Entry.tagData ++
            store.taken lookup.query fuel pass') ∧
      store.At pass' (endFrom place commits) ∧
      pass'.belief = commits.foldl (Belief.commit store.order lookup) pass.belief := by
  induction hchain generalizing pass with
  | nil place => exact ⟨0, pass, le_refl _, fun fuel => ⟨rfl, rfl⟩, hplace, rfl⟩
  | @cons place commit rest hcommit hrest ih =>
      rw [List.flatMap_cons] at hclean
      obtain ⟨middle, hscan, hmiddle, hbelief⟩ := passes_commit hcommit hplace hbytes
        (fun entry hmem => hclean entry (List.mem_append_left _ hmem))
      have hpair : middle.dir.pair = pass.dir.pair :=
        congrArg (fun belief : Belief => belief.dir.pair) hbelief
      obtain ⟨turns, pass', hturns, hscan', hplace', hbelief'⟩ := ih hmiddle
        (by rw [hpair, hbytes]) (fun entry hmem => hclean entry (List.mem_append_right _ hmem))
      have hlength : place.off + 4 * (commit.entries.length + 1) ≤ commit.next.off := by
        have hcrc := hcommit.crcOff_lt
        obtain ⟨hentries, hcloses⟩ := hcommit
        have hentries' := hentries.length_le
        simp only [closed] at hcrc ⊢
        omega
      refine ⟨turns + (commit.entries.length + 1), pass', ?_, ?_, hplace', ?_⟩
      · have hend : endFrom place (commit :: rest) = endFrom commit.next rest := rfl
        rw [hend]
        omega
      · intro fuel
        rw [← Nat.add_assoc, (hscan (fuel + turns)).1, (hscan (fuel + turns)).2, (hscan' fuel).1,
          (hscan' fuel).2, List.flatMap_cons, List.map_append, List.append_assoc]
        exact ⟨rfl, rfl⟩
      · rw [hbelief', hbelief, List.foldl_cons]

/-- Behind the last complete commit nothing is published. -/
theorem passes_rest (hnone : nextCommit store.cfg.blockSize bytes place = none)
    (hentries : Entries store.cfg.blockSize bytes place.off place.ptag entries off ptag)
    (hplace : store.At pass ⟨place.start, off, ptag⟩)
    (hbytes : store.bytes pass.dir.pair.1 = bytes) :
    (store.scan query fuel pass).1.belief.published = pass.belief.published := by
  induction fuel generalizing pass entries off ptag with
  | zero => rfl
  | succ fuel ih =>
      cases hturn : store.turn query pass with
      | stop maybeerased =>
          rw [Store.scan, hturn]
      | next pass' =>
          rw [Store.scan_next hturn]
          obtain hcloses | ⟨hentry, hplace', hpublished⟩ := hplace.next_cases hturn
          · rw [hbytes] at hcloses
            exact absurd (Complete.intro hentries hcloses) (nextCommit_eq_none_iff.mp hnone _)
          · rw [hbytes] at hentry hplace'
            have hdir : pass'.dir = pass.dir := congrArg Prod.fst hpublished
            rw [← hpublished]
            exact ih (hentries.snoc hentry) hplace' (by rw [hdir, hbytes])

end Store.At

/-! ## One block -/

/-- What is believed before the scan. -/
def Store.blank (store : Store) (pair : WordPair) : Belief where
  dir := { pair := pair, rev := store.order.le (store.revision pair.1) }
  seed := store.seed

def Store.log (store : Store) (block : Word) : List LogCommit :=
  completeCommits store.cfg.blockSize (store.bytes block)

/-- What the complete commits of the first block say. -/
def Store.believed (store : Store) (lookup : Lookup) (pair : WordPair) : Belief :=
  (store.log pair.1).foldl (Belief.commit store.order lookup) (store.blank pair)

theorem leBytes_revision {block : Word} (hblock : store.Readable block)
    (hsize : 4 ≤ store.cfg.blockSize) :
    leBytes (store.revision block) = Images.read (store.bytes block) 0 4 := by
  have hread : store.read block 0 4 = some (Images.read (store.bytes block) 0 4) :=
    Store.read_eq hblock (by omega)
  rw [Store.revision, hread]
  exact leBytes_ofLeBytes _ _ _ _

/-- The pass before its first turn. -/
def Store.firstPass (store : Store) (pair : WordPair) : Pass where
  crc := lfsCrc 0xffffffff (store.order.bytes (store.order.le (store.revision pair.1)))
  temp := {}
  dir := { pair := pair, rev := store.order.le (store.revision pair.1) }
  besttag := nullWord
  seed := store.seed

theorem Store.at_firstPass {pair : WordPair} (hblock : store.Readable pair.1)
    (hsize : 4 ≤ store.cfg.blockSize) : store.At (store.firstPass pair) Place.first := by
  apply Store.At.mk
  · have hdsize : (tagOf nullWord).dsize = 4 := by decide
    simp only [Store.firstPass, hdsize, Place.first]
  · rfl
  · simp only [Store.firstPass, ByteOrder.bytes_le, leBytes_revision hblock hsize]
    rfl
  · exact Nat.zero_le _
  · exact hblock

/-- The pass over the first block of a pair. -/
def Store.scanFront (store : Store) (query : Query) (pair : WordPair) : Pass × Bool :=
  store.scanBlock query pair (store.revision pair.1)

/-- The tags that this pass takes up. -/
def Store.takenFront (store : Store) (query : Query) (pair : WordPair) : List TagData :=
  store.taken query (store.cfg.blockSize + 1) (store.firstPass pair)

/-- The tags of the complete commits of a block. -/
def Store.tags (store : Store) (block : Word) : List TagData :=
  ((store.log block).flatMap LogCommit.entries).map Entry.tagData

/-- The scan of a block gets to the end of its complete commits, takes up their tags,
and publishes what they say. -/
theorem Store.scanFront_eq (pair : WordPair) (hblock : store.Readable pair.1)
    (hsize : 4 ≤ store.cfg.blockSize)
    (hclean : lookup.Clean ((store.log pair.1).flatMap LogCommit.entries)) :
    ∃ fuel pass, store.scanFront lookup.query pair = store.scan lookup.query (fuel + 1) pass ∧
      store.takenFront lookup.query pair =
        store.tags pair.1 ++ store.taken lookup.query (fuel + 1) pass ∧
      store.At pass (endOf (store.log pair.1)) ∧
      pass.belief = store.believed lookup pair := by
  have hchain : Chain store.cfg.blockSize (store.bytes pair.1) Place.first
      (store.log pair.1) := chain_completeCommits
  obtain ⟨turns, pass, hturns, hscan, hplace, hbelief⟩ :=
    Store.At.passes_chain hchain (Store.at_firstPass hblock hsize) rfl hclean
  have hend := hchain.end_le hsize
  obtain ⟨fuel, hfuel⟩ : ∃ fuel, store.cfg.blockSize = fuel + turns :=
    ⟨store.cfg.blockSize - turns, by omega⟩
  have hsplit : store.cfg.blockSize + 1 = fuel + 1 + turns := by omega
  refine ⟨fuel, pass, ?_, ?_, hplace, hbelief⟩
  · rw [Store.scanFront, Store.scanBlock, hsplit]
    exact (hscan (fuel + 1)).1
  · rw [Store.takenFront, hsplit]
    exact (hscan (fuel + 1)).2

theorem Store.scanFront_published (pair : WordPair) (hblock : store.Readable pair.1)
    (hsize : 4 ≤ store.cfg.blockSize)
    (hclean : lookup.Clean ((store.log pair.1).flatMap LogCommit.entries)) :
    (store.scanFront lookup.query pair).1.belief.published =
      (store.believed lookup pair).published := by
  obtain ⟨fuel, pass, hscan, -, hplace, hbelief⟩ := Store.scanFront_eq pair hblock hsize hclean
  have hpair : pass.dir.pair = pair := by
    have hfold : ∀ (commits : List LogCommit) (belief : Belief),
        (commits.foldl (Belief.commit store.order lookup) belief).dir.pair = belief.dir.pair := by
      intro commits
      induction commits with
      | nil => exact fun belief => rfl
      | cons commit rest ih => exact fun belief => ih _
    calc pass.dir.pair = pass.belief.dir.pair := rfl
      _ = pair := by rw [hbelief, Store.believed, hfold]; rfl
  rw [hscan, ← hbelief]
  apply Store.At.passes_rest nextCommit_completeCommits (Entries.nil _ _) hplace
  rw [hpair]

end Littlefs.Disk
