import Littlefs.Disk.DirCommit

/-!
# What a commit leaves in its block

Both writers come down to one run of attributes and a checksum: those of the caller,
then the tail of a compaction, then the global state.  A directory that they return
ends where the complete commits of its block end, and the log of the block are the
old commits, or none of them, and the new.
-/

namespace Littlefs.Disk

open Words

variable {store store' : Store} {dir dir' : LfsMdir} {commit commit' : LfsCommit}
  {attr : LfsMattr} {attrs : List LfsMattr} {blank : ℕ → Octet} {relocated : Bool} {count : ℕ}
  {α β : Type}

/-! ## Taking a commit apart -/

theorem bind_ok {first : Except Fault α} {next : α → Except Fault β} {result : β}
    (hrun : (first >>= next) = .ok result) :
    ∃ value, first = .ok value ∧ next value = .ok result := by
  cases first with
  | error fault => cases hrun
  | ok value => exact ⟨value, rfl, hrun⟩

/-- What `closeDir` makes of the store. -/
def Store.settled (store : Store) (relocated : Bool) : Store :=
  { store with
    gdisk := if relocated then store.gdisk else store.gstate
    gdelta := {} }

theorem closeDir_ok {state : Store × LfsCommit}
    (hclose : closeDir dir relocated state = .ok (store', dir')) :
    ∃ sealed commit', lfsDirCommitcrc state = .ok (sealed, commit') ∧
      store' = sealed.settled relocated ∧
      dir' = { dir with off := commit'.off, etag := commit'.ptag } := by
  rw [closeDir] at hclose
  obtain ⟨⟨sealed, commit'⟩, hcrc, hresult⟩ := bind_ok hclose
  cases hresult
  exact ⟨sealed, commit', hcrc, rfl, rfl⟩

theorem writeCommit_of_foldlM {state : Store × LfsCommit} {result : Store × LfsCommit}
    (hattrs : attrs.foldlM lfsDirCommitattr (store, commit) = .ok state)
    (hcrc : lfsDirCommitcrc state = .ok result) : writeCommit store commit attrs = .ok result := by
  rw [writeCommit, hattrs]
  exact hcrc

/-- More attributes behind those that are written. -/
theorem foldlM_append_ok {more : List LfsMattr} {state state' : Store × LfsCommit}
    {start : Store × LfsCommit} (hattrs : attrs.foldlM lfsDirCommitattr start = .ok state)
    (hmore : more.foldlM lfsDirCommitattr state = .ok state') :
    (attrs ++ more).foldlM lfsDirCommitattr start = .ok state' := by
  rw [List.foldlM_append, hattrs]
  exact hmore

theorem foldlM_singleton (attr : LfsMattr) (state : Store × LfsCommit) :
    [attr].foldlM lfsDirCommitattr state = lfsDirCommitattr state attr := by
  simp only [List.foldlM_cons, List.foldlM_nil, bind_pure]

/-- An appended commit leaves the global state out when the delta is zero; what the
directory has already then stays in its log. -/
theorem appendMovestate_ok {state state' : Store × LfsCommit}
    (hmoves : appendMovestate dir state = .ok state') :
    ∃ more, more.foldlM lfsDirCommitattr state = .ok state' ∧
      ((state.1.delta false).iszero = true ∧ more = [] ∨
        ∃ delta, lfsDirGetgstate state.1 dir (state.1.delta false) = .ok delta ∧
          more = [movestateAttr state.1.order delta]) := by
  rw [appendMovestate] at hmoves
  by_cases hzero : (state.1.delta false).iszero = true
  · rw [if_pos hzero] at hmoves
    exact ⟨[], hmoves, Or.inl ⟨hzero, rfl⟩⟩
  · rw [if_neg hzero] at hmoves
    obtain ⟨delta, hdelta, hattr⟩ := bind_ok hmoves
    refine ⟨[movestateAttr state.1.order delta], ?_, Or.inr ⟨delta, hdelta, rfl⟩⟩
    rw [foldlM_singleton]
    exact hattr

theorem compactMovestate_ok {state state' : Store × LfsCommit}
    (hmoves : compactMovestate dir relocated state = .ok state') :
    ∃ more, more.foldlM lfsDirCommitattr state = .ok state' ∧
      ∃ delta, lfsDirGetgstate state.1 dir (state.1.delta relocated) = .ok delta ∧
        more = if delta.iszero then [] else [movestateAttr state.1.order delta] := by
  rw [compactMovestate] at hmoves
  obtain ⟨delta, hdelta, hrest⟩ := bind_ok hmoves
  by_cases hzero : delta.iszero = true
  · rw [if_pos hzero] at hrest
    refine ⟨[], hrest, delta, hdelta, ?_⟩
    rw [if_pos hzero]
  · rw [if_neg hzero] at hrest
    refine ⟨[movestateAttr state.1.order delta], ?_, delta, hdelta, ?_⟩
    · rw [foldlM_singleton]
      exact hrest
    · rw [if_neg hzero]

/-- The attributes of the tail that a compaction adds. -/
def tailAttrs (order : ByteOrder) (dir : LfsMdir) : List LfsMattr :=
  if lfsPairIsnull dir.tail.toPair then [] else [tailAttr order dir]

theorem compactTail_eq (dir : LfsMdir) (state : Store × LfsCommit) :
    compactTail dir state = (tailAttrs state.1.order dir).foldlM lfsDirCommitattr state := by
  rw [compactTail, tailAttrs]
  split
  · rfl
  · rw [foldlM_singleton]

theorem copyFromDisk_order {block : Word} {size off : ℕ} {state state' : Store × LfsCommit}
    (hcopy : copyFromDisk block size off state = .ok state') :
    state'.1.order = state.1.order := by
  induction size generalizing off state with
  | zero =>
      cases hcopy
      rfl
  | succ size ih =>
      obtain ⟨store, commit⟩ := state
      rw [copyFromDisk] at hcopy
      cases hread : store.read block off 1 with
      | none =>
          rw [hread] at hcopy
          cases hcopy
      | some dat =>
          rw [hread] at hcopy
          have hrest : copyFromDisk block size (off + 1) (lfsDirCommitprog store commit dat) =
              .ok state' := hcopy
          exact (ih hrest).trans rfl

theorem lfsDirCommitattr_order {state state' : Store × LfsCommit}
    (hattr : lfsDirCommitattr state attr = .ok state') : state'.1.order = state.1.order := by
  rw [lfsDirCommitattr] at hattr
  split at hattr
  · cases hattr
  · simp only at hattr
    cases hbuffer : attr.buffer with
    | memory data =>
        rw [hbuffer] at hattr
        simp only at hattr
        split at hattr
        · cases hattr
        · cases hattr
          rfl
    | disk block off =>
        rw [hbuffer] at hattr
        cases hcopy : copyFromDisk block ((tagOf attr.tag).dsize - 4) off
            (lfsDirCommitprog state.1 state.2 (state.1.order.bytes
              (state.1.order.be ((attr.tag &&& 0x7fffffff) ^^^ state.2.ptag)))) with
        | error fault =>
            simp only [hcopy] at hattr
            cases hattr
        | ok copied =>
            simp only [hcopy] at hattr
            cases hattr
            exact (copyFromDisk_order hcopy).trans rfl

theorem commitAttrs_order {state state' : Store × LfsCommit}
    (hattrs : attrs.foldlM lfsDirCommitattr state = .ok state') :
    state'.1.order = state.1.order := by
  induction attrs generalizing state with
  | nil =>
      cases hattrs
      rfl
  | cons attr rest ih =>
      rw [List.foldlM_cons] at hattrs
      obtain ⟨middle, hattr, hrest⟩ := bind_ok hattrs
      exact (ih hrest).trans (lfsDirCommitattr_order hattr)

/-- The attributes change the count and the tail of the directory in memory. -/
theorem attrs_place {order : ByteOrder} (hdir : attrs.foldlM (LfsMdir.attr order) dir = .ok dir') :
    dir' = { dir with count := dir'.count, split := dir'.split, tail := dir'.tail } := by
  induction attrs generalizing dir with
  | nil =>
      cases hdir
      rfl
  | cons attr rest ih =>
      rw [List.foldlM_cons] at hdir
      obtain ⟨middle, hattr, hrest⟩ := bind_ok hdir
      have hmiddle : middle = { dir with
          count := middle.count, split := middle.split, tail := middle.tail } := by
        rw [LfsMdir.attr] at hattr
        split at hattr
        · cases hattr
          rfl
        · split at hattr
          · cases hattr
            rfl
          · split at hattr
            · cases hwords : attr.buffer.words order with
              | none =>
                  rw [hwords] at hattr
                  cases hattr
              | some buf =>
                  rw [hwords] at hattr
                  cases hattr
                  rfl
            · cases hattr
              rfl
      rw [ih hrest, hmiddle]

/-- An appended commit: the attributes of the caller, and the global state. -/
theorem lfsDirAppend_ok (hrun : lfsDirAppend store dir attrs = .ok (store', dir')) :
    ∃ more sealed commit' dir₁ state,
      attrs.foldlM (LfsMdir.attr store.order) dir = .ok dir₁ ∧
      attrs.foldlM lfsDirCommitattr (store, dir.appended store.cfg.commitEnd) = .ok state ∧
      ((state.1.delta false).iszero = true ∧ more = [] ∨
        ∃ delta, lfsDirGetgstate state.1 dir₁ (state.1.delta false) = .ok delta ∧
          more = [movestateAttr state.1.order delta]) ∧
      writeCommit store (dir.appended store.cfg.commitEnd) (attrs ++ more) =
        .ok (sealed, commit') ∧
      store' = sealed.settled false ∧
      dir' = { dir₁ with off := commit'.off, etag := commit'.ptag } := by
  rw [lfsDirAppend] at hrun
  obtain ⟨dir₁, hdir, hrun⟩ := bind_ok hrun
  obtain ⟨state, hattrs, hrun⟩ := bind_ok hrun
  obtain ⟨state', hmoves, hrun⟩ := bind_ok hrun
  obtain ⟨more, hmore, hcases⟩ := appendMovestate_ok hmoves
  obtain ⟨sealed, commit', hcrc, hstore, hresult⟩ := closeDir_ok hrun
  have hplace : dir₁.appended store.cfg.commitEnd = dir.appended store.cfg.commitEnd := by
    rw [attrs_place hdir]
    rfl
  rw [hplace] at hattrs
  exact ⟨more, sealed, commit', dir₁, state, hdir, hattrs, hcases,
    writeCommit_of_foldlM (foldlM_append_ok hattrs hmore) hcrc, hstore, hresult⟩

/-- A compaction: the attributes of the caller, the tail, and the global state. -/
theorem lfsDirCompact_ok
    (hrun : lfsDirCompact store dir blank relocated attrs count = .ok (store', dir')) :
    ∃ more sealed commit' state,
      (attrs ++ tailAttrs store.order dir).foldlM lfsDirCommitattr
          (freshCommit (store.erase dir.pair.2 blank) dir.pair.2 (dir.rev + 1)
            store.cfg.commitEnd) = .ok state ∧
      (∃ delta, lfsDirGetgstate state.1 { dir with rev := dir.rev + 1 }
          (state.1.delta relocated) = .ok delta ∧
        more = if delta.iszero then [] else [movestateAttr state.1.order delta]) ∧
      writeCommit
          (freshCommit (store.erase dir.pair.2 blank) dir.pair.2 (dir.rev + 1)
            store.cfg.commitEnd).1
          (freshCommit (store.erase dir.pair.2 blank) dir.pair.2 (dir.rev + 1)
            store.cfg.commitEnd).2
          (attrs ++ tailAttrs store.order dir ++ more) = .ok (sealed, commit') ∧
      store' = sealed.settled relocated ∧
      dir' = { dir with
        rev := dir.rev + 1
        pair := dir.pair.swap
        count := count
        off := commit'.off
        etag := commit'.ptag } := by
  rw [lfsDirCompact] at hrun
  obtain ⟨state, hattrs, hrun⟩ := bind_ok hrun
  obtain ⟨state', htail, hrun⟩ := bind_ok hrun
  obtain ⟨state'', hmoves, hrun⟩ := bind_ok hrun
  obtain ⟨more, hmore, hcases⟩ := compactMovestate_ok hmoves
  obtain ⟨sealed, commit', hcrc, hstore, hresult⟩ := closeDir_ok hrun
  rw [compactTail_eq, commitAttrs_order hattrs] at htail
  have hboth := foldlM_append_ok hattrs htail
  exact ⟨more, sealed, commit', state', hboth, hcases,
    writeCommit_of_foldlM (foldlM_append_ok hboth hmore) hcrc, hstore, hresult⟩

/-! ## Directories that end where their log ends -/

/-- `dir` ends where the complete commits of its block end. -/
structure Holds (store : Store) (dir : LfsMdir) : Prop where
  geometry : Geometry store.cfg
  readable : store.Readable dir.pair.1
  log_ne : store.log dir.pair.1 ≠ []
  off_eq : dir.off = (endOf (store.log dir.pair.1)).off
  etag_eq : dir.etag = (endOf (store.log dir.pair.1)).ptag
  extent_le : extent (store.log dir.pair.1) ≤ dir.off

/-- What an attribute has to be like for a commit at `low` in `block`. -/
def Committable (attrs : List LfsMattr) (block : Word) (low : ℕ) : Prop :=
  ∀ attr ∈ attrs, (tagOf attr.tag).type2 ≠ tyCcrc ∧ attr.Outside block low

variable {pair : WordPair} {block : Word} {tags : List TagData} {place : Place}
  {old : List LogCommit}

theorem Store.log_chain (store : Store) (block : Word) :
    Chain store.cfg.blockSize (store.bytes block) Place.first (store.log block) :=
  chain_completeCommits

theorem Holds.place_eq (hholds : Holds store dir) :
    endFrom Place.first (store.log dir.pair.1) = ⟨dir.off, dir.off, dir.etag⟩ := by
  have hstart := (store.log_chain dir.pair.1).end_start hholds.log_ne
  have hoff := hholds.off_eq
  have hetag := hholds.etag_eq
  rw [endOf] at hoff hetag
  rw [hoff, hetag, Place.mk.injEq]
  exact ⟨hstart, rfl, rfl⟩

/-- Where a directory ends a commit can begin. -/
theorem Holds.pending (hholds : Holds store dir) (stop : ℕ) :
    Pending store (dir.appended stop) (endFrom Place.first (store.log dir.pair.1)) [] := by
  rw [hholds.place_eq]
  apply Pending.mk
  · rfl
  · rfl
  · rfl
  · simp only [LfsMdir.appended, Nat.sub_self]
    rfl
  · exact le_refl _
  · exact fun entry hmem => absurd hmem List.not_mem_nil

theorem extent_append_le {more : List LogCommit} (hne : more ≠ []) {stop : ℕ}
    (hreach : ∀ logged ∈ more, logged.reach ≤ stop) : extent (old ++ more) ≤ stop := by
  obtain ⟨front, last, rfl⟩ : ∃ front last, more = front ++ [last] :=
    ⟨more.dropLast, more.getLast hne, (List.dropLast_append_getLast hne).symm⟩
  have hlast := hreach last (List.mem_append_right _ List.mem_cons_self)
  simp only [extent, ← List.append_assoc, List.foldl_append, List.foldl_cons, List.foldl_nil]
  exact hlast

/-- A written commit is the end of the log of its block. -/
theorem Written.holds (hwritten : Written store store' commit commit' place tags)
    (hgeometry : Geometry store.cfg) (hreadable : store.Readable commit.block)
    (hold : Chain store.cfg.blockSize (store'.bytes commit.block) Place.first old)
    (hplace : endFrom Place.first old = place) (hpair : dir.pair.1 = commit.block)
    (hoff : dir.off = commit'.off) (hetag : dir.etag = commit'.ptag) :
    Holds store' dir ∧ ∃ more, store'.log commit.block = old ++ more ∧
      (more.flatMap LogCommit.entries).map Entry.tagData =
        tags ++ store'.forwardTags commit.block commit'.off := by
  obtain ⟨more, hne, hlog, hends, htags, hreach⟩ := hwritten.log_eq hgeometry hold hplace
  have hlog' : store'.log dir.pair.1 = old ++ more := by rw [hpair, hlog]
  have hends' : endOf (store'.log dir.pair.1) = ⟨commit'.off, commit'.off, commit'.ptag⟩ := by
    rw [hpair, hends]
  rw [hwritten.block_eq] at htags
  refine ⟨?_, more, hlog, htags⟩
  apply Holds.mk
  · rw [hwritten.writes.cfg_eq]
    exact hgeometry
  · rw [hpair, hwritten.writes.readable]
    exact hreadable
  · rw [hlog']
    exact fun hnil => hne (List.append_eq_nil_iff.mp hnil).2
  · rw [hends', hoff]
  · rw [hends', hetag]
  · rw [hlog', hoff]
    exact extent_append_le hne hreach

/-- The rest of the store does not matter. -/
theorem Holds.congr (hholds : Holds store dir) (hcfg : store'.cfg = store.cfg)
    (hcount : store'.blockCount = store.blockCount)
    (hbytes : store'.bytes dir.pair.1 = store.bytes dir.pair.1) (hpair : dir'.pair.1 = dir.pair.1)
    (hoff : dir'.off = dir.off) (hetag : dir'.etag = dir.etag) : Holds store' dir' := by
  have hlog : store'.log dir'.pair.1 = store.log dir.pair.1 := by
    rw [Store.log, Store.log, hcfg, hpair, hbytes]
  apply Holds.mk
  · rw [hcfg]
    exact hholds.geometry
  · rw [Store.Readable, hcount, hpair]
    exact hholds.readable
  · rw [hlog]
    exact hholds.log_ne
  · rw [hlog, hoff]
    exact hholds.off_eq
  · rw [hlog, hetag]
    exact hholds.etag_eq
  · rw [hlog, hoff]
    exact hholds.extent_le

/-- Attributes in memory can be committed anywhere. -/
theorem Committable.append {more : List LfsMattr} {low : ℕ}
    (hattrs : Committable attrs block low) (hmore : Committable more block low) :
    Committable (attrs ++ more) block low := by
  intro attr hmem
  obtain hleft | hright := List.mem_append.mp hmem
  · exact hattrs attr hleft
  · exact hmore attr hright

theorem type2_movestateTag : (tagOf movestateTag).type2 ≠ tyCcrc := by decide

theorem type2_tailTag (split : Bool) : (tagOf (tailTag split)).type2 ≠ tyCcrc := by
  cases split <;> decide

theorem committable_movestate (order : ByteOrder) (delta : LfsGstate) (low : ℕ) :
    Committable [movestateAttr order delta] block low := by
  intro attr hmem
  obtain rfl := List.mem_singleton.mp hmem
  exact ⟨type2_movestateTag, trivial⟩

theorem committable_tailAttrs (order : ByteOrder) (dir : LfsMdir) (low : ℕ) :
    Committable (tailAttrs order dir) block low := by
  rw [tailAttrs]
  split
  · exact fun attr hmem => absurd hmem List.not_mem_nil
  · intro attr hmem
    obtain rfl := List.mem_singleton.mp hmem
    exact ⟨type2_tailTag dir.split, trivial⟩

/-- An appended commit goes on with the log of the directory. -/
theorem Holds.appended {sealed : Store} (hholds : Holds store dir) (dir' : LfsMdir)
    (hattrs : Committable attrs dir.pair.1 dir.off)
    (hcommit : writeCommit store (dir.appended store.cfg.commitEnd) attrs =
      .ok (sealed, commit'))
    (hpair : dir'.pair.1 = dir.pair.1) (hoff : dir'.off = commit'.off)
    (hetag : dir'.etag = commit'.ptag) :
    WritesWithin store sealed dir.pair.1 dir.off commit'.off ∧ Holds sealed dir' ∧
      ∃ more, sealed.log dir.pair.1 = store.log dir.pair.1 ++ more ∧
        (more.flatMap LogCommit.entries).map Entry.tagData =
          (attrs.map fun attr => attr.tagData store) ++
            sealed.forwardTags dir.pair.1 commit'.off := by
  have hwritten := writeCommit_written hholds.geometry hholds.readable
    (fun attr hmem => (hattrs attr hmem).1) (fun attr hmem => (hattrs attr hmem).2) hcommit
    (hholds.pending store.cfg.commitEnd)
  have hwrites : WritesWithin store sealed dir.pair.1 dir.off commit'.off := hwritten.writes
  have hold : Chain store.cfg.blockSize (sealed.bytes dir.pair.1) Place.first
      (store.log dir.pair.1) := by
    apply (store.log_chain dir.pair.1).congr
    intro address hlt
    exact (hwrites.before address (lt_of_lt_of_le hlt hholds.extent_le)).symm
  obtain ⟨hholds', more, hlog, htags⟩ := hwritten.holds hholds.geometry hholds.readable hold rfl
    hpair hoff hetag
  exact ⟨hwrites, hholds', more, hlog, htags⟩

/-- The first commit of a block is its whole log. -/
theorem fresh_holds {sealed : Store} {rev : Word} {stop : ℕ} (dir' : LfsMdir)
    (hgeometry : Geometry store.cfg) (hreadable : store.Readable block)
    (hattrs : Committable attrs block 4)
    (hcommit : writeCommit (freshCommit store block rev stop).1
      (freshCommit store block rev stop).2 attrs = .ok (sealed, commit'))
    (hpair : dir'.pair.1 = block) (hoff : dir'.off = commit'.off)
    (hetag : dir'.etag = commit'.ptag) :
    Holds sealed dir' ∧
      ∃ more, sealed.log block = more ∧
        (more.flatMap LogCommit.entries).map Entry.tagData =
          (attrs.map fun attr => attr.tagData (freshCommit store block rev stop).1) ++
            sealed.forwardTags block commit'.off := by
  have houtside : ∀ attr ∈ attrs, attr.Outside (freshCommit store block rev stop).2.block
      (freshCommit store block rev stop).2.off := by
    intro attr hmem
    rw [freshCommit_off]
    exact (hattrs attr hmem).2
  have hwritten : Written (freshCommit store block rev stop).1 sealed
      (freshCommit store block rev stop).2 commit' _ _ :=
    writeCommit_written hgeometry hreadable (fun attr hmem => (hattrs attr hmem).1) houtside
      hcommit (freshCommit_pending store block rev stop)
  obtain ⟨hholds', more, hlog, htags⟩ := hwritten.holds hgeometry hreadable (Chain.nil _) rfl
    hpair hoff hetag
  exact ⟨hholds', more, hlog, htags⟩

end Littlefs.Disk
