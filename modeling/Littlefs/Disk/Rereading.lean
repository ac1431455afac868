import Littlefs.Disk.Closing
import Littlefs.Disk.CompleteCommits

/-!
# Reading a commit again

What a successful commit leaves on the device, and that a later fetch of the pair
chooses the block it went to: behind a directory that a fetch returned, or on a
block just erased with a newer revision.  The commits that were there stay, and
the ones behind them hold the tags written and the forward CRC.
-/

namespace Littlefs.Disk

open Words

variable {store store' : Store} {lookup : Lookup} {pair front : WordPair} {fetched : Fetched}
    {dir : LfsMdir}
  {commits more : List LogCommit} {place : Place} {size : ℕ} {bytes : ℕ → Octet}
  {commit commit' : LfsCommit} {block : Word} {tags : List TagData} {attrs : List LfsMattr}
  {stop : ℕ}

/-! ## Entries of a chain -/

theorem endFrom_append (place : Place) (commits more : List LogCommit) :
    endFrom place (commits ++ more) = endFrom (endFrom place commits) more := List.foldl_append

theorem Entries.mem {off off' : ℕ} {ptag ptag' : Word} {entries : List Entry} {entry : Entry}
    (hentries : Entries size bytes off ptag entries off' ptag') (hmem : entry ∈ entries) :
    ∃ off, IsEntry size off entry.tag ∧ entry = entryAt bytes off entry.tag := by
  induction hentries with
  | nil off ptag => exact absurd hmem List.not_mem_nil
  | @cons off off' ptag ptag' rest hentry hrest ih =>
      obtain rfl | hmem' := List.mem_cons.mp hmem
      · exact ⟨off, hentry, rfl⟩
      · exact ih hmem'

theorem Chain.mem {entry : Entry} (hchain : Chain size bytes place commits)
    (hmem : entry ∈ commits.flatMap LogCommit.entries) :
    ∃ off, IsEntry size off entry.tag ∧ entry = entryAt bytes off entry.tag := by
  induction hchain with
  | nil place => exact absurd hmem List.not_mem_nil
  | @cons place commit rest hcommit hrest ih =>
      rw [List.flatMap_cons, List.mem_append] at hmem
      obtain hfirst | hrest' := hmem
      · obtain ⟨hentries, hcloses⟩ := hcommit
        exact hentries.mem hfirst
      · exact ih hrest'

/-- Nothing valid behind the chain, no further commit. -/
theorem nextCommit_eq_none
    (hinvalid : place.off + 8 ≤ size → isvalid (tagAt bytes place.off place.ptag) = false) :
    nextCommit size bytes place = none := by
  rw [nextCommit_eq_none_iff]
  intro commit hcommit
  have hoff : place.off ≤ commit.crcOff := hcommit.off_le_crcOff
  have hreach : commit.crcOff + 8 ≤ size := hcommit.reach_le
  have hfalse := hinvalid (by omega)
  obtain ⟨hentries, hcloses⟩ := hcommit
  cases hentries with
  | nil =>
      rw [hcloses.1] at hfalse
      cases hfalse
  | cons hentry hrest =>
      rw [hentry.1] at hfalse
      cases hfalse

/-- `lfs_dir_fetch` asks about no tag at all. -/
theorem Lookup.fetch_clean (hchain : Chain size bytes place commits) :
    Lookup.fetch.Clean (commits.flatMap LogCommit.entries) := by
  intro entry hmem hselects
  obtain ⟨off, hentry, -⟩ := hchain.mem hmem
  have htag : entry.tag = BitVec.allOnes 32 := by
    have hand : BitVec.allOnes 32 &&& entry.tag = BitVec.allOnes 32 &&& BitVec.allOnes 32 :=
      beq_iff_eq.mp hselects
    rwa [BitVec.allOnes_and, BitVec.allOnes_and] at hand
  have hvalid := hentry.1
  rw [htag] at hvalid
  exact absurd hvalid (by decide)

theorem foldl_commit_fcrc (order : ByteOrder) (commits : List LogCommit) (belief : Belief) :
    (commits.foldl (Belief.commit order lookup) belief).fcrc =
      (commits.flatMap LogCommit.entries).foldl (Entry.fcrc order) belief.fcrc := by
  induction commits generalizing belief with
  | nil => rfl
  | cons commit rest ih =>
      rw [List.foldl_cons, ih, List.flatMap_cons, List.foldl_append]
      rfl

/-! ## Fetching what is there -/

/-- `dir` ends where the complete commits end, of the block that a fetch of `pair`
chooses. -/
structure Current (store : Store) (pair : WordPair) (dir : LfsMdir) : Prop where
  chosen : store.chosen pair = some dir.pair
  inRange : store.InRange dir.pair
  log_ne : store.log dir.pair.1 ≠ []
  off_eq : dir.off = (endOf (store.log dir.pair.1)).off
  etag_eq : dir.etag = (endOf (store.log dir.pair.1)).ptag

theorem Store.fetched_current (hsize : 4 ≤ store.cfg.blockSize) (hrange : store.InRange pair)
    (hclean : ∀ front, store.chosen pair = some front →
      lookup.Clean ((store.log front.1).flatMap LogCommit.entries))
    (hfetch : store.fetchmatch lookup.query pair = some fetched) :
    Current store pair fetched.dir := by
  obtain ⟨hnone, -⟩ | ⟨front, hchosen, hrange', hsome⟩ :=
    Store.fetchmatch_cases hsize hrange hclean
  · rw [hfetch] at hnone
    cases hnone
  · have hpublished := Store.scanFront_published front hrange'.1 hsize (hclean front hchosen)
    have hdir : (store.scanFront lookup.query front).1.dir = (store.believed lookup front).dir :=
      congrArg Prod.fst hpublished
    have hfetched : fetched = store.conclude (store.scanFront lookup.query front).1
        (store.scanFront lookup.query front).2 := by
      rw [hfetch] at hsome
      exact Option.some.inj hsome
    have hpair : fetched.dir.pair = front := by
      calc fetched.dir.pair
          = (store.scanFront lookup.query front).1.dir.pair := by rw [hfetched]; rfl
        _ = front := by rw [hdir, believed_pair]
    have hoff : fetched.dir.off = (store.believed lookup front).dir.off := by
      calc fetched.dir.off = (store.scanFront lookup.query front).1.dir.off := by rw [hfetched]; rfl
        _ = (store.believed lookup front).dir.off := by rw [hdir]
    have hetag : fetched.dir.etag = (store.believed lookup front).dir.etag := by
      calc fetched.dir.etag = (store.scanFront lookup.query front).1.dir.etag := by
            rw [hfetched]; rfl
        _ = (store.believed lookup front).dir.etag := by rw [hdir]
    have hlog : store.log front.1 ≠ [] := by
      unfold Store.chosen at hchosen
      split at hchosen
      · rename_i hne
        rwa [← Option.some.inj hchosen]
      · split at hchosen
        · rename_i hne
          rwa [← Option.some.inj hchosen]
        · cases hchosen
    have hends : (store.believed lookup front).dir.off = _ ∧
        (store.believed lookup front).dir.etag = _ :=
      foldl_commit_off store.order (store.blank front) Place.first hlog
    obtain ⟨hends, htags⟩ := hends
    apply Current.mk
    · rw [hpair]
      exact hchosen
    · rw [hpair]
      exact hrange'
    · rw [hpair]
      exact hlog
    · rw [hpair]
      exact hoff.trans hends
    · rw [hpair]
      exact hetag.trans htags

/-- Behind the last commit the scan stops, and takes up nothing more. -/
theorem Store.At.stops {pass : Pass} (hplace : store.At pass place) (query : Query) (fuel : ℕ)
    (hinvalid : place.off + 4 ≤ store.cfg.blockSize →
      isvalid (tagAt (store.bytes pass.dir.pair.1) place.off place.ptag) = false)
    (hccrc : (tagOf place.ptag).type2 = tyCcrc) :
    store.scan query (fuel + 1) pass = (pass, decide (place.off + 4 ≤ store.cfg.blockSize)) ∧
      store.taken query (fuel + 1) pass = [] := by
  have hturn : store.turn query pass = .stop (decide (place.off + 4 ≤ store.cfg.blockSize)) := by
    by_cases hsize : place.off + 4 ≤ store.cfg.blockSize
    · obtain ⟨hread, hword⟩ := hplace.tag_eq hsize
      have hnot : ¬isvalid (tagAt (store.bytes pass.dir.pair.1) place.off place.ptag) = true := by
        rw [hinvalid hsize]
        exact Bool.false_ne_true
      have htype : ((tagOf pass.ptag).type2 == tyCcrc) = true := by
        rw [hplace.ptag_eq, beq_iff_eq]
        exact hccrc
      simp only [Store.turn, hplace.off_eq, hread, hword, eq_true hnot, if_true, htype,
        decide_eq_true hsize]
    · simp only [Store.turn, hplace.off_eq, Store.read_eq_none (Nat.not_le.mp hsize),
        decide_eq_false hsize]
  constructor
  · rw [Store.scan, hturn]
  · rw [Store.taken, hturn]

/-- The forward CRC that a commit writes is the one that the fetch checks. -/
theorem believed_fcrc (hunit : stop ≤ store.cfg.blockSize - store.cfg.progSize)
    (htags : store.tags front.1 = tags ++ store.forwardTags front.1 stop) :
    (store.believed lookup front).fcrc = some
      { size := BitVec.ofNat 32 store.cfg.progSize
        crc := lfsCrc 0xffffffff (Images.read (store.bytes front.1) stop store.cfg.progSize) } := by
  have hchain : Chain store.cfg.blockSize (store.bytes front.1) Place.first
      (store.log front.1) := chain_completeCommits
  rw [Store.forwardTags, if_pos hunit] at htags
  obtain ⟨entries, last, hentries, -, hlast⟩ := List.map_eq_append_iff.mp htags
  obtain ⟨entry, rest, rfl, hentry, hrest⟩ := List.map_eq_cons_iff.mp hlast
  obtain rfl : rest = [] := List.map_eq_nil_iff.mp hrest
  have hmem : entry ∈ (store.log front.1).flatMap LogCommit.entries := by
    rw [hentries]
    exact List.mem_append_right _ List.mem_cons_self
  obtain ⟨off, -, hat⟩ := hchain.mem hmem
  have htag : entry.tag = fcrcTag := congrArg Prod.fst hentry
  have hdata : entry.data = leBytes (BitVec.ofNat 32 store.cfg.progSize) ++
      leBytes (lfsCrc 0xffffffff (Images.read (store.bytes front.1) stop store.cfg.progSize)) :=
    congrArg Prod.snd hentry
  have hwindow : entry.window = entry.data := by
    have hdsize : (tagOf fcrcTag).dsize - 4 = 8 := by decide
    rw [hat, htag]
    simp only [entryAt, hdsize]
  have htype : (tagOf fcrcTag).type3 = tyFcrc := by decide
  rw [Store.believed, foldl_commit_fcrc, hentries, List.foldl_append, List.foldl_cons,
    List.foldl_nil, Entry.fcrc, htag, if_pos htype, hwindow, hdata]
  generalize lfsCrc 0xffffffff (Images.read (store.bytes front.1) stop store.cfg.progSize) = crc
  generalize BitVec.ofNat 32 store.cfg.progSize = unit
  have hdrop : (leBytes unit ++ leBytes crc).drop 4 = leBytes crc ++ [] := by
    rw [List.append_nil]
    rfl
  rw [LfsFcrc.ofBytes, hdrop, ByteOrder.ofBytes_leBytes_append, ByteOrder.ofBytes_leBytes_append,
    ByteOrder.le_le, ByteOrder.le_le]

/-! ## Writing -/

/-- What a successful commit leaves on the device. -/
structure Written (store store' : Store) (commit commit' : LfsCommit) (place : Place)
    (tags : List TagData) : Prop where
  writes : WritesWithin store store' commit.block commit.off commit'.off
  block_eq : commit'.block = commit.block
  chain : ∃ commits, commits ≠ [] ∧
    Chain store.cfg.blockSize (store'.bytes commit.block) place commits ∧
    (commits.flatMap LogCommit.entries).map Entry.tagData =
      tags ++ store'.forwardTags commit'.block commit'.off ∧
    endFrom place commits = ⟨commit'.off, commit'.off, commit'.ptag⟩ ∧
    ∀ logged ∈ commits, logged.reach ≤ commit'.off
  ccrc : (tagOf commit'.ptag).type2 = tyCcrc
  dvd : store.cfg.progSize ∣ commit'.off
  invalid : commit'.off + 4 ≤ store.cfg.blockSize →
    isvalid (tagAt (store'.bytes commit.block) commit'.off commit'.ptag) = false

/-- A tag word next to an erased byte with the other top bit is not valid. -/
theorem isvalid_tagAt {off : ℕ} {ptag : Word} (hmsb : ptag.msb = !(bytes off).msb) :
    isvalid (tagAt bytes off ptag) = false := by
  have hread : Images.read bytes off 4 =
      [bytes off, bytes (off + 1), bytes (off + 2), bytes (off + 3)] := rfl
  rw [isvalid_eq, tagAt, hread, BitVec.msb_xor, msb_ofBeBytes, hmsb]
  cases (bytes off).msb <;> rfl

/-- The tags of attributes that are no CRC tags. -/
theorem isPlain_tagData (htypes : ∀ attr ∈ attrs, (tagOf attr.tag).type2 ≠ tyCcrc)
    (hlengths : ∀ attr ∈ attrs, (attr.data store).length = (tagOf attr.tag).dsize - 4) :
    ∀ entry ∈ attrs.map fun attr => attr.tagData store, IsPlain entry := by
  intro entry hmem
  obtain ⟨attr, hattr, rfl⟩ := List.mem_map.mp hmem
  apply IsPlain.mk
  · exact isvalid_clear attr.tag
  · simp only [LfsMattr.tagData, tagOf_clear]
    exact htypes attr hattr
  · simp only [LfsMattr.tagData, tagOf_clear]
    exact hlengths attr hattr

theorem writeCommit_written (hgeometry : Geometry store.cfg) (hblock : store.Readable commit.block)
    (htypes : ∀ attr ∈ attrs, (tagOf attr.tag).type2 ≠ tyCcrc)
    (houtside : ∀ attr ∈ attrs, attr.Outside commit.block commit.off)
    (hcommit : writeCommit store commit attrs = .ok (store', commit'))
    (hpending : Pending store commit place []) :
    Written store store' commit commit' place (attrs.map fun attr => attr.tagData store) := by
  have hpos := hgeometry.prog_pos
  have hlow := Nat.le_of_dvd (Nat.lt_of_lt_of_le (by norm_num) hgeometry.block_le)
    hgeometry.prog_dvd
  rw [writeCommit] at hcommit
  cases hattrs : attrs.foldlM lfsDirCommitattr (store, commit) with
  | error e =>
      rw [hattrs] at hcommit
      cases hcommit
  | ok state =>
      rw [hattrs] at hcommit
      simp only at hcommit
      obtain ⟨hstate, hlengths⟩ := commitAttrs_ok hattrs houtside
      have hpending' := hpending.advance (isPlain_tagData htypes hlengths)
      rw [hstate] at hcommit
      simp only at hcommit hpending'
      generalize attrs.map (fun attr => attr.tagData store) = tags at hcommit hpending' ⊢
      rw [List.nil_append] at hpending'
      have hcommit' : lfsDirCommitcrc ((advance (store, commit) tags).1,
          (advance (store, commit) tags).2) = .ok (store', commit') := hcommit
      have hroom : (advance (store, commit) tags).2.off + 8 ≤ store.cfg.blockSize := by
        apply lfsDirCommitcrc_room ?_ hcommit'
        exact hgeometry
      have hsealed : Sealed (advance (store, commit) tags).1 store'
          (advance (store, commit) tags).2 commit' place tags
            (crcEnd store.cfg (advance (store, commit) tags).2.off) := by
        apply lfsDirCommitcrc_sealed ?_ ?_ hcommit' hpending'
        · exact hgeometry
        · exact hblock
      have hoff := hsealed.off_eq
      have hend : (advance (store, commit) tags).2.off =
          commit.off + (encodeTags commit.ptag tags).length := rfl
      have hstop : commit'.off ≤ store.cfg.blockSize := by
        rw [hoff]
        exact lfsAlignup_le hpos (min_le_right _ _) hgeometry.prog_dvd
      have hle : min ((advance (store, commit) tags).2.off + 20) store.cfg.blockSize ≤
          commit'.off := by
        rw [hoff]
        exact le_lfsAlignup hpos
      have hdvd : store.cfg.progSize ∣ commit'.off := by
        rw [hoff]
        exact dvd_lfsAlignup _ _
      rw [← hoff] at hsealed
      have hlater : WritesWithin (advance (store, commit) tags).1 store' commit.block
          (advance (store, commit) tags).2.off commit'.off := hsealed.writes
      have hwrites : WritesWithin store store' commit.block commit.off commit'.off := by
        have hlength : commit.off + (encodeTags commit.ptag tags).length ≤ commit'.off := by omega
        have hfirst : WritesWithin store (advance (store, commit) tags).1 commit.block commit.off
            commit'.off := WritesWithin.prog (le_refl _) hlength
        exact hfirst.trans (hlater.mono (by omega) (le_refl _))
      have hforward : (advance (store, commit) tags).1.forwardTags commit.block commit'.off =
          store'.forwardTags commit'.block commit'.off := by
        have hblock_eq : commit'.block = commit.block := hsealed.block_eq
        rw [Store.forwardTags, Store.forwardTags, hblock_eq, hlater.cfg_eq,
          hlater.read_behind (le_refl _)]
      obtain ⟨commits, hne, hchain, htags, hends, hreach⟩ := hsealed.chain
      exact {
        writes := hwrites
        block_eq := hsealed.block_eq
        chain :=
          ⟨commits, hne, hchain, htags.trans (congrArg (tags ++ ·) hforward), hends, hreach⟩
        ccrc := hsealed.ccrc
        dvd := hdvd
        invalid := by
          intro hroom'
          apply isvalid_tagAt
          have hunit : commit'.off ≤ store.cfg.blockSize - store.cfg.progSize := by
            obtain ⟨units, hunits⟩ := hdvd
            obtain ⟨total, htotal⟩ := hgeometry.prog_dvd
            have hless : units < total := by
              apply Nat.lt_of_mul_lt_mul_left (a := store.cfg.progSize)
              omega
            have hmul : store.cfg.progSize * (units + 1) ≤ store.cfg.progSize * total :=
              Nat.mul_le_mul_left _ hless
            rw [Nat.mul_succ] at hmul
            omega
          have hsame : store'.bytes commit.block commit'.off =
              (advance (store, commit) tags).1.bytes commit.block commit'.off :=
            hlater.behind _ (le_refl _)
          rw [hsame]
          exact hsealed.perturbed hunit }

/-! ## The block that is read -/

theorem Chain.end_start (hchain : Chain size bytes place commits) (hne : commits ≠ []) :
    (endFrom place commits).start = (endFrom place commits).off := by
  induction hchain with
  | nil place => exact absurd rfl hne
  | @cons place commit rest hcommit hrest ih =>
      by_cases hrest' : rest = []
      · subst hrest'
        exact hcommit.next_start
      · exact ih hrest'

/-- The bytes of a chain end where its last CRC tag does, when that has room for its
checksum. -/
theorem Chain.extent_le {low : ℕ} (hchain : Chain size bytes place commits) (hne : commits ≠ [])
    (hroom : 8 ≤ (tagOf (endFrom place commits).ptag).dsize) :
    commits.foldl (fun _ commit => commit.reach) low ≤ (endFrom place commits).off := by
  induction hchain generalizing low with
  | nil place => exact absurd rfl hne
  | @cons place commit rest hcommit hrest ih =>
      by_cases hrest' : rest = []
      · subst hrest'
        obtain ⟨hentries, hcloses⟩ := hcommit
        simp only [endFrom, List.foldl_cons, List.foldl_nil, closed, tagOf_perturb,
          LogCommit.reach] at hroom ⊢
        omega
      · exact ih hrest' hroom

/-- The choice goes by the revisions and by which blocks hold a commit. -/
theorem Store.chosen_eq
    (hrevision : ∀ block, block = pair.1 ∨ block = pair.2 →
      store'.revision block = store.revision block)
    (hlog : ∀ block, block = pair.1 ∨ block = pair.2 →
      (store'.log block = [] ↔ store.log block = [])) :
    store'.chosen pair = store.chosen pair := by
  have hordered : store'.ordered pair = store.ordered pair := by
    rw [Store.ordered, Store.ordered, hrevision pair.1 (Or.inl rfl),
      hrevision pair.2 (Or.inr rfl)]
  have hfirst := hlog pair.1 (Or.inl rfl)
  have hsecond := hlog pair.2 (Or.inr rfl)
  unfold Store.chosen
  rw [hordered]
  obtain hsame | hswap := store.ordered_cases pair
  · simp only [hsame, hfirst, hsecond, ne_eq]
  · simp only [hswap, Prod.fst_swap, Prod.snd_swap, hfirst, hsecond, ne_eq]

theorem WritesWithin.inRange {low high : ℕ} (hwrites : WritesWithin store store' block low high)
    (hrange : store.InRange pair) : store'.InRange pair :=
  ⟨hwrites.readable.mpr hrange.1, hwrites.readable.mpr hrange.2⟩

theorem WritesWithin.log_other {low high : ℕ} {other : Word}
    (hwrites : WritesWithin store store' block low high) (hne : other ≠ block) :
    store'.log other = store.log other := by
  rw [Store.log, Store.log, hwrites.cfg_eq, hwrites.other other hne]

theorem WritesWithin.revision_eq {low high : ℕ} {other : Word}
    (hwrites : WritesWithin store store' block low high) (hsame : other ≠ block ∨ 4 ≤ low) :
    store'.revision other = store.revision other := by
  have hread : Images.read (store'.bytes other) 0 4 = Images.read (store.bytes other) 0 4 := by
    by_cases hother : other = block
    · subst hother
      exact hwrites.read_before (hsame.resolve_left (not_not_intro rfl))
    · rw [hwrites.other other hother]
  rw [Store.revision, Store.revision, Store.read, Store.read, hwrites.cfg_eq,
    hwrites.blockCount_eq, hread]

/-- The commits that a block holds once a further chain is written. -/
theorem Written.log_eq {old : List LogCommit}
    (hwritten : Written store store' commit commit' place tags)
    (hgeometry : Geometry store.cfg)
    (hold : Chain store.cfg.blockSize (store'.bytes commit.block) Place.first old)
    (hplace : endFrom Place.first old = place) :
    ∃ commits, commits ≠ [] ∧ store'.log commit.block = old ++ commits ∧
      endOf (store'.log commit.block) = ⟨commit'.off, commit'.off, commit'.ptag⟩ ∧
      (commits.flatMap LogCommit.entries).map Entry.tagData =
        tags ++ store'.forwardTags commit'.block commit'.off ∧
      ∀ logged ∈ commits, logged.reach ≤ commit'.off := by
  obtain ⟨commits, hne, hchain, htags, hends, hreach⟩ := hwritten.chain
  have hsize : 4 ≤ store.cfg.blockSize := Nat.le_trans (by norm_num) hgeometry.block_le
  have hall : Chain store.cfg.blockSize (store'.bytes commit.block) Place.first
      (old ++ commits) := by
    apply hold.append
    rw [hplace]
    exact hchain
  have hends' : endOf (old ++ commits) = ⟨commit'.off, commit'.off, commit'.ptag⟩ := by
    rw [endOf, endFrom_append, hplace, hends]
  have hlog : store'.log commit.block = old ++ commits := by
    rw [Store.log, hwritten.writes.cfg_eq]
    apply hall.completeCommits_eq hsize
    rw [hends']
    apply nextCommit_eq_none
    intro hroom
    exact hwritten.invalid (by
      simp only at hroom
      omega)
  refine ⟨commits, hne, hlog, ?_, htags, hreach⟩
  rw [hlog, hends']

/-- A fetch of `pair` reads the block of `commit` again: `old`, and behind it commits
that hold `tags` and the forward CRC, up to where `commit` ended. -/
structure Rereads (store : Store) (pair front : WordPair) (old : List LogCommit)
    (tags : List TagData) (commit : LfsCommit) : Prop where
  chosen : store.chosen pair = some front
  inRange : store.InRange front
  block_eq : front.1 = commit.block
  log_eq : ∃ commits, commits ≠ [] ∧ store.log front.1 = old ++ commits ∧
    (commits.flatMap LogCommit.entries).map Entry.tagData =
      tags ++ store.forwardTags front.1 commit.off
  ends : endOf (store.log front.1) = ⟨commit.off, commit.off, commit.ptag⟩
  dvd : store.cfg.progSize ∣ commit.off
  invalid : commit.off + 4 ≤ store.cfg.blockSize →
    isvalid (tagAt (store.bytes front.1) commit.off commit.ptag) = false
  ccrc : (tagOf commit.ptag).type2 = tyCcrc

theorem Rereads.log_ne {old : List LogCommit} (hreads : Rereads store pair front old tags commit) :
    store.log front.1 ≠ [] := by
  obtain ⟨commits, hne, hlog, -⟩ := hreads.log_eq
  rw [hlog]
  exact fun hnil => hne (List.append_eq_nil_iff.mp hnil).2

theorem Rereads.tags_eq {old : List LogCommit} (hreads : Rereads store pair front old tags commit) :
    store.tags front.1 = (old.flatMap LogCommit.entries).map Entry.tagData ++ tags ++
      store.forwardTags front.1 commit.off := by
  obtain ⟨commits, -, hlog, htags⟩ := hreads.log_eq
  rw [Store.tags, hlog, List.flatMap_append, List.map_append, htags, List.append_assoc]

/-- What is written to the block that a fetch chooses is read again. -/
theorem Written.rereads {old : List LogCommit}
    (hwritten : Written store store' commit commit' place tags)
    (hgeometry : Geometry store.cfg) (hrange : store.InRange pair)
    (hold : Chain store.cfg.blockSize (store'.bytes commit.block) Place.first old)
    (hplace : endFrom Place.first old = place)
    (hchosen : store'.log commit.block ≠ [] → store'.chosen pair = some front)
    (hfront : front = pair ∨ front = pair.swap) (hblock : front.1 = commit.block) :
    Rereads store' pair front old tags commit' := by
  obtain ⟨commits, hne, hlog, hends, htags, -⟩ := hwritten.log_eq hgeometry hold hplace
  have hrange' : store'.InRange pair := hwritten.writes.inRange hrange
  have hlog' : store'.log commit.block ≠ [] := by
    rw [hlog]
    exact fun hnil => hne (List.append_eq_nil_iff.mp hnil).2
  have hchosen' := hchosen hlog'
  have hblock_eq := hwritten.block_eq
  have hcfg := hwritten.writes.cfg_eq
  have hinvalid := hwritten.invalid
  rw [hblock_eq] at htags
  rw [← hblock] at hlog hends htags hinvalid hblock_eq
  rw [← hcfg] at hinvalid
  apply Rereads.mk hchosen'
  · obtain rfl | rfl := hfront
    · exact hrange'
    · exact ⟨hrange'.2, hrange'.1⟩
  · exact hblock_eq.symm
  · exact ⟨commits, hne, hlog, htags⟩
  · exact hends
  · rw [hcfg]
    exact hwritten.dvd
  · exact hinvalid
  · exact hwritten.ccrc

theorem Newer.not_newer {a b : Word} (hnewer : Newer a b) : ¬Newer b a := by
  obtain ⟨steps, hpos, hlt, rfl⟩ := hnewer
  rintro ⟨steps', hpos', hlt', hback⟩
  have hsum : b + BitVec.ofNat 32 (steps + steps') = b := by
    rw [BitVec.ofNat_add, ← BitVec.add_assoc]
    exact hback.symm
  have hzero : BitVec.ofNat 32 (steps + steps') = 0#32 := by
    calc BitVec.ofNat 32 (steps + steps') = b + BitVec.ofNat 32 (steps + steps') - b := by
          rw [BitVec.add_comm, BitVec.add_sub_cancel]
      _ = 0#32 := by rw [hsum, BitVec.sub_self]
  have hnat := congrArg BitVec.toNat hzero
  rw [BitVec.toNat_ofNat, Nat.mod_eq_of_lt (by omega)] at hnat
  simp only [BitVec.toNat_ofNat] at hnat
  omega

/-- A block with commits whose rival is older, or holds none, is the one to read. -/
theorem Store.chosen_of_newer (hlog : store.log block ≠ [])
    (hblock : block = pair.1 ∨ block = pair.2)
    (hrev : ∀ other, other = pair.1 ∨ other = pair.2 → other ≠ block →
      Newer (store.revision block) (store.revision other) ∨ store.log other = []) :
    ∃ front, (front = pair ∨ front = pair.swap) ∧ front.1 = block ∧
      store.chosen pair = some front := by
  obtain ⟨first, second⟩ := pair
  simp only at hblock hrev
  by_cases hsame : first = second
  · subst hsame
    have hfirst : block = first := hblock.elim id id
    subst hfirst
    refine ⟨(block, block), Or.inl rfl, rfl, ?_⟩
    have hordered : store.ordered (block, block) = (block, block) := by
      rw [Store.ordered]
      split <;> rfl
    rw [Store.chosen, hordered, if_pos hlog]
  · obtain rfl | rfl := hblock
    · refine ⟨(block, second), Or.inl rfl, rfl, ?_⟩
      obtain hnewer | hnil := hrev second (Or.inr rfl) (Ne.symm hsame)
      · have hordered : store.ordered (block, second) = (block, second) :=
          if_neg hnewer.not_newer
        rw [Store.chosen, hordered, if_pos hlog]
      · obtain hordered | hordered := store.ordered_cases (block, second)
        · rw [Store.chosen, hordered, if_pos hlog]
        · simp only [Store.chosen, hordered, Prod.swap, hnil, ne_eq, not_true_eq_false, if_false,
            eq_true hlog, if_true]
    · refine ⟨(block, first), Or.inr rfl, rfl, ?_⟩
      obtain hnewer | hnil := hrev first (Or.inl rfl) hsame
      · have hordered : store.ordered (first, block) = (block, first) := if_pos hnewer
        rw [Store.chosen, hordered, if_pos hlog]
      · obtain hordered | hordered := store.ordered_cases (first, block)
        · simp only [Store.chosen, hordered, Prod.swap, hnil, ne_eq, not_true_eq_false, if_false,
            eq_true hlog, if_true]
        · rw [Store.chosen, hordered]
          exact if_pos hlog

/-! ## The two beginnings -/

/-- Behind the commits of a directory. -/
theorem append_rereads (hgeometry : Geometry store.cfg) (hrange : store.InRange pair)
    (hcurrent : Current store pair dir)
    (hroom : 8 ≤ (tagOf dir.etag).dsize)
    (htypes : ∀ attr ∈ attrs, (tagOf attr.tag).type2 ≠ tyCcrc)
    (houtside : ∀ attr ∈ attrs, attr.Outside dir.pair.1 dir.off)
    (hcommit : writeCommit store (dir.appended stop) attrs = .ok (store', commit')) :
    WritesWithin store store' dir.pair.1 dir.off commit'.off ∧
      Rereads store' pair dir.pair (store.log dir.pair.1)
        (attrs.map fun attr => attr.tagData store) commit' := by
  obtain ⟨hchosen, hfront, hlog, hoff, hetag⟩ := hcurrent
  have hold : Chain store.cfg.blockSize (store.bytes dir.pair.1) Place.first
      (store.log dir.pair.1) := chain_completeCommits
  have hstart := hold.end_start hlog
  have hplace : endFrom Place.first (store.log dir.pair.1) =
      ⟨dir.off, dir.off, dir.etag⟩ := by
    rw [hoff, hetag, Place.mk.injEq]
    exact ⟨hstart, rfl, rfl⟩
  have hextent : extent (store.log dir.pair.1) ≤ dir.off := by
    rw [hoff]
    apply hold.extent_le hlog
    rw [hplace]
    exact hroom
  have hfour : 4 ≤ extent (store.log dir.pair.1) := hold.four_le_extent
  have hpending : Pending store (dir.appended stop)
      ⟨dir.off, dir.off, dir.etag⟩ [] := by
    apply Pending.mk
    · rfl
    · rfl
    · rfl
    · simp only [LfsMdir.appended, Nat.sub_self]
      rfl
    · exact le_refl _
    · exact fun entry hmem => absurd hmem List.not_mem_nil
  have hwritten : Written store store' (dir.appended stop) commit' _ _ :=
    writeCommit_written hgeometry hfront.1 htypes houtside hcommit hpending
  have hwrites : WritesWithin store store' dir.pair.1 dir.off commit'.off :=
    hwritten.writes
  have hold' : Chain store.cfg.blockSize (store'.bytes dir.pair.1) Place.first
      (store.log dir.pair.1) := by
    apply hold.congr
    intro address hlt
    exact (hwrites.before address (by omega)).symm
  refine ⟨hwrites, ?_⟩
  apply hwritten.rereads hgeometry hrange hold' hplace ?_ (Store.chosen_cases hchosen) rfl
  intro hlog'
  rw [← hchosen]
  apply Store.chosen_eq
  · intro block hblock
    exact hwrites.revision_eq (Or.inr (by omega))
  · intro block hblock
    by_cases hfirst : block = dir.pair.1
    · subst hfirst
      exact iff_of_false hlog' hlog
    · rw [hwrites.log_other hfirst]

@[simp]
theorem freshCommit_off (store : Store) (block rev : Word) (stop : ℕ) :
    (freshCommit store block rev stop).2.off = 4 := by
  simp only [freshCommit, lfsDirCommitprog, ByteOrder.length_bytes, Nat.zero_add]

theorem freshCommit_word (store : Store) (block rev : Word) (stop : ℕ) :
    Images.read ((freshCommit store block rev stop).1.bytes block) 0 4 = leBytes rev := by
  have hbytes : (freshCommit store block rev stop).1.bytes block =
      Images.write (store.bytes block) 0 (leBytes rev) := by
    simp only [freshCommit, lfsDirCommitprog, ByteOrder.bytes_le, Store.prog_bytes_self]
  rw [hbytes]
  exact Images.read_write_self

/-- The first commit of a block begins behind the revision. -/
theorem freshCommit_pending (store : Store) (block rev : Word) (stop : ℕ) :
    Pending (freshCommit store block rev stop).1 (freshCommit store block rev stop).2
      Place.first [] := by
  apply Pending.mk
  · exact freshCommit_off store block rev stop
  · rfl
  · rfl
  · calc lfsCrc 0xffffffff (store.order.bytes (store.order.le rev))
        = lfsCrc 0xffffffff (leBytes rev) := by rw [ByteOrder.bytes_le]
      _ = lfsCrc 0xffffffff
          (Images.read ((freshCommit store block rev stop).1.bytes block) 0 4) := by
          rw [freshCommit_word]
      _ = lfsCrc 0xffffffff (Images.read ((freshCommit store block rev stop).1.bytes block) 0
          ((freshCommit store block rev stop).2.off - 0)) := by rw [freshCommit_off]
  · exact Nat.zero_le _
  · exact fun entry hmem => absurd hmem List.not_mem_nil

/-- On a block just erased. -/
theorem fresh_rereads {rev : Word} (hgeometry : Geometry store.cfg)
    (hrange : store.InRange pair) (hblock : block = pair.1 ∨ block = pair.2)
    (hrev : ∀ other, other = pair.1 ∨ other = pair.2 → other ≠ block →
      Newer rev (store.revision other) ∨ store.log other = [])
    (htypes : ∀ attr ∈ attrs, (tagOf attr.tag).type2 ≠ tyCcrc)
    (houtside : ∀ attr ∈ attrs, attr.Outside block 4)
    (hcommit : writeCommit (freshCommit store block rev stop).1
      (freshCommit store block rev stop).2 attrs = .ok (store', commit')) :
    WritesWithin store store' block 0 commit'.off ∧ store'.revision block = rev ∧
      ∃ front, (front = pair ∨ front = pair.swap) ∧ front.1 = block ∧
        Rereads store' pair front []
          (attrs.map fun attr => attr.tagData (freshCommit store block rev stop).1) commit' := by
  have hsize : 4 ≤ store.cfg.blockSize := Nat.le_trans (by norm_num) hgeometry.block_le
  have hreadable : store.Readable block := by
    obtain rfl | rfl := hblock
    · exact hrange.1
    · exact hrange.2
  have hword := freshCommit_word store block rev stop
  have hpending := freshCommit_pending store block rev stop
  have hfirst : WritesWithin store (freshCommit store block rev stop).1 block 0 4 :=
    WritesWithin.prog (le_refl _) (by rw [ByteOrder.length_bytes])
  have houtside' : ∀ attr ∈ attrs, attr.Outside block (freshCommit store block rev stop).2.off := by
    rw [freshCommit_off]
    exact houtside
  have hwritten : Written (freshCommit store block rev stop).1 store'
      (freshCommit store block rev stop).2 commit' _ _ :=
    writeCommit_written hgeometry hreadable htypes houtside' hcommit hpending
  have hlater : WritesWithin (freshCommit store block rev stop).1 store' block 4 commit'.off := by
    have hwrites := hwritten.writes
    rw [freshCommit_off] at hwrites
    exact hwrites
  have hoff : 4 ≤ commit'.off := by
    obtain ⟨commits, hne, hchain, -, hends, -⟩ := hwritten.chain
    have hlength := hchain.length_le
    rw [hends] at hlength
    simp only [Place.first] at hlength
    omega
  have hwrites : WritesWithin store store' block 0 commit'.off :=
    (hfirst.mono (le_refl _) hoff).trans (hlater.mono (Nat.zero_le _) (le_refl _))
  have hrevision : store'.revision block = rev := by
    have hread : store'.read block 0 4 = some (Images.read (store'.bytes block) 0 4) :=
      Store.read_eq (hwrites.readable.mpr hreadable) (by rw [hwrites.cfg_eq]; omega)
    rw [Store.revision, hread, hlater.read_before (by omega), hword]
    exact ofLeBytes_leBytes rev
  by_cases hnil : store'.log block = []
  · obtain ⟨commits, hne, hlog, -, -⟩ := hwritten.log_eq hgeometry (Chain.nil _) rfl
    have hlog' : store'.log block = [] ++ commits := hlog
    rw [hnil] at hlog'
    exact absurd hlog'.symm hne
  · obtain ⟨front, hfront, hfirst', hchosen⟩ := Store.chosen_of_newer hnil hblock (by
      intro other hother hne
      rw [hrevision, hwrites.revision_eq (Or.inl hne), hwrites.log_other hne]
      exact hrev other hother hne)
    refine ⟨hwrites, hrevision, front, hfront, hfirst', ?_⟩
    exact hwritten.rereads hgeometry (hfirst.inRange hrange) (Chain.nil _) rfl (fun _ => hchosen)
      hfront hfirst'

end Littlefs.Disk
