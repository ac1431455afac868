import Littlefs.Splitting
import Littlefs.Relocate
import Mathlib.Data.List.TakeWhile

/-!
# One commit of a directory

`lfs_dir_relocatingcommit` appends the attributes behind the commits on the
current block, or rewrites the pair.  A failed append costs the block its erased
bytes and nothing else.
-/

namespace Littlefs

open Program

/-! ## After a failed append -/

/-- Accesses to the device, after which `block` may have lost its erased bytes. -/
structure Alike (block : Block) (base lfs : Lfs) : Prop where
  eq : lfs = { base with script := lfs.script, disk := lfs.disk }
  suffix : lfs.script <:+ base.script
  other : ∀ other, other ≠ block → lfs.disk other = base.disk other
  log : SameLog (lfs.disk block) (base.disk block)
  data : (lfs.disk block).data = (base.disk block).data

namespace Alike

variable {block : Block} {base middle lfs : Lfs}

theorem refl (block : Block) (base : Lfs) : Alike block base base :=
  ⟨rfl, List.suffix_rfl, fun _ _ => rfl, .refl _, rfl⟩

theorem trans (hleft : Alike block base middle) (hright : Alike block middle lfs) :
    Alike block base lfs where
  eq := by rw [hright.eq, hleft.eq]
  suffix := hright.suffix.trans hleft.suffix
  other other hne := (hright.other other hne).trans (hleft.other other hne)
  log := hright.log.trans hleft.log
  data := hright.data.trans hleft.data

theorem of_reads (hreads : Reads base lfs) : Alike block base lfs := by
  have hdisk : lfs.disk = base.disk := by rw [hreads.eq]
  refine ⟨by rw [hreads.eq], hreads.suffix, fun _ _ => by rw [hdisk], ?_, by rw [hdisk]⟩
  rw [hdisk]
  exact .refl _

theorem of_wrote (hwrote : Wrote block { base.disk block with erased := false } base lfs) :
    Alike block base lfs := by
  have hdisk : lfs.disk =
      Function.update base.disk block { base.disk block with erased := false } := by
    rw [hwrote.eq]
  refine ⟨by rw [hwrote.eq], hwrote.suffix, fun other hne => ?_, ?_, ?_⟩
  · rw [hdisk, Function.update_of_ne hne]
  · rw [hdisk, Function.update_self]
    exact ⟨rfl, rfl⟩
  · rw [hdisk, Function.update_self]

theorem sameLog (halike : Alike block base lfs) (other : Block) :
    SameLog (lfs.disk other) (base.disk other) := by
  by_cases heq : other = block
  · rw [heq]
    exact halike.log
  · rw [halike.other other heq]
    exact .refl _

theorem mdirLog_eq (halike : Alike block base lfs) (dir : Mdir) :
    mdirLog lfs.disk dir = mdirLog base.disk dir := by
  rw [mdirLog, mdirLog, BlockImage.log, BlockImage.log, (halike.sameLog _).commits]

theorem share_eq (halike : Alike block base lfs) (dir : Mdir) : share lfs dir = share base dir := by
  rw [share, share, readableLog, readableLog, halike.mdirLog_eq]

theorem ahead (halike : Alike block base lfs) (other : Block) :
    lfs.Ahead other ↔ base.Ahead other := by
  rw [halike.eq]
  rfl

theorem blockCount (halike : Alike block base lfs) : lfs.blockCount = base.blockCount := by
  rw [halike.eq]

theorem held (halike : Alike block base lfs) {used : List Block} {other : Block}
    (hheld : Held used base other) : Held used lfs other :=
  hheld.mono fun block h => (halike.ahead block).mp h

theorem taken (halike : Alike block base middle) {used : List Block} {other : Block}
    (htaken : Taken used middle lfs other) : Taken used base lfs other :=
  ⟨htaken.free, (halike.ahead _).mp htaken.ahead, htaken.spent, halike.blockCount ▸ htaken.lt⟩

theorem imageWf (halike : Alike block base lfs) {other : Block}
    (hwf : ImageWf (base.disk other)) : ImageWf (lfs.disk other) := by
  have hdata : (lfs.disk other).data = (base.disk other).data := by
    by_cases heq : other = block
    · rw [heq]
      exact halike.data
    · rw [halike.other other heq]
  obtain ⟨hdata', hsorted, hoff⟩ := hwf
  have hcommits := (halike.sameLog other).commits
  rw [← hcommits] at hdata' hsorted hoff
  rw [← hdata] at hdata'
  exact ⟨hdata', hsorted, hoff⟩

theorem guarded (halike : Alike block base lfs) {used : List Block} {own : Option Block}
    (hguarded : Guarded used own base) : Guarded used own lfs where
  inv := by
    obtain ⟨hvalid, hroom, hclear⟩ := hguarded.inv
    rw [halike.eq]
    exact ⟨hvalid, hroom, hclear⟩
  held other hown := halike.held (hguarded.held other hown)
  covers lfs' hintact := by
    apply hguarded.covers
    intro other hused
    apply (hintact other hused).imp _ id
    exact fun hsame => hsame.trans (halike.sameLog other)

theorem built (halike : Alike block base lfs) {mattr : Mattr} (hbuilt : Built base.disk mattr) :
    Built lfs.disk mattr := by
  cases hbuilt with
  | plain hplain => exact .plain hplain
  | move htype hsource =>
      apply Built.move htype
      rw [halike.mdirLog_eq]
      exact hsource
  | userattrs htype hlist => exact .userattrs htype hlist

theorem committing (halike : Alike block base lfs) {used : List Block} {dir : Mdir}
    {attrs : List Mattr} (hcommitting : Committing used base dir attrs) :
    Committing used lfs dir attrs where
  cfg := by
    rw [halike.eq]
    exact hcommitting.cfg
  word := halike.blockCount ▸ hcommitting.word
  guarded := halike.guarded hcommitting.guarded
  held := halike.held hcommitting.held
  ne := hcommitting.ne
  fst_lt := halike.blockCount ▸ hcommitting.fst_lt
  snd_lt := halike.blockCount ▸ hcommitting.snd_lt
  rev := by
    rw [(halike.sameLog _).rev, (halike.sameLog _).commits]
    exact hcommitting.rev
  images other hlt := halike.imageWf (hcommitting.images other (halike.blockCount ▸ hlt))
  log := by
    rw [halike.mdirLog_eq]
    exact hcommitting.log
  built mattr hmattr := halike.built (hcommitting.built mattr hmattr)
  stateless := hcommitting.stateless
  sources mattr hmattr source hsource := by
    obtain ⟨hheld, hne⟩ := hcommitting.sources mattr hmattr source hsource
    exact ⟨halike.held hheld, hne⟩

/-- What came before the commit does not count. -/
theorem replaced {used : List Block} {dir result : Mdir} {tail : Pair} {state : CommitState}
    {news : List Mdir} (halike : Alike dir.pair.1 base middle)
    (hreplaced : Replaced used middle dir tail result state news lfs) :
    Replaced used base dir tail result state news lfs where
  inv := hreplaced.inv
  ahead other h := (halike.ahead other).mp (hreplaced.ahead other h)
  frame other hheld hfst hsnd := by
    rw [← halike.other other hfst]
    exact hreplaced.frame other (halike.held hheld) hfst hsnd
  reaches := hreplaced.reaches
  ne_nil := hreplaced.ne_nil
  apart := hreplaced.apart
  blocks other hmem := (hreplaced.blocks other hmem).imp id (Or.imp id halike.taken)
  stays := hreplaced.stays
  conserves := by
    have hgdisk : middle.gdisk = base.gdisk := by rw [halike.eq]
    have hgdelta : middle.gdelta = base.gdelta := by rw [halike.eq]
    rw [← halike.share_eq, ← hgdisk, ← hgdelta]
    exact hreplaced.conserves
  gstate := by
    rw [hreplaced.gstate, halike.eq]
  gdelta := hreplaced.gdelta
  gdisk := hreplaced.gdisk

end Alike

/-! ## What an append adds to the log -/

theorem plainScan_append_singleton (log : List Attr) (attr : Attr) :
    plainScan (log ++ [attr]) = Scan.step (fun _ => none) (plainScan log) attr := by
  rw [plainScan, plainScan, scanLog, scanLog, List.foldl_append, List.foldl_cons, List.foldl_nil]

theorem step_tail (scan : Scan) (attr : Attr) :
    (Scan.step (fun _ => none) scan attr).tail =
      if attr.1.type1 = tyTail then attr.2.toPair else scan.tail := by
  have hname : tyName ≠ tyTail := by decide
  have hsplice : tySplice ≠ tyTail := by decide
  simp only [Scan.step]
  split
  · rename_i htype
    rw [htype, if_neg hname]
    split <;> rfl
  · split
    · rename_i htype
      rw [htype, if_neg hsplice]
      rfl
    · split <;> rfl

theorem applyMattr_tail (dir : Mdir) {mattr : Mattr} {payload : Payload}
    (hbuffer : mattr.buffer = .data payload) : (applyMattr dir mattr).tail =
      if mattr.tag.type1 = tyTail then payload.toPair else dir.tail := by
  have hcreate : tyCreate &&& 0x700 ≠ tyTail := by decide
  have hdelete : tyDelete &&& 0x700 ≠ tyTail := by decide
  unfold applyMattr
  split
  · rename_i htype
    rw [Tag.type1, ← Tag.type3, htype, if_neg hcreate]
  · split
    · rename_i htype
      rw [Tag.type1, ← Tag.type3, htype, if_neg hdelete]
    · split
      · simp [hbuffer]
      · rfl

theorem applyMattr_tail_of_ne (dir : Mdir) {mattr : Mattr} (htype : mattr.tag.type1 ≠ tyTail) :
    (applyMattr dir mattr).tail = dir.tail := by
  unfold applyMattr
  rw [if_neg htype]
  split
  · rfl
  · split <;> rfl

section

variable {disk : Block → BlockImage}

theorem low_userattrs {tag : Tag} {list : List UserAttr} (hlist : UserAttrsWf list) :
    Low (list.map fun attr => (userattrTag tag 0 attr, Payload.bytes attr.buffer)) := by
  intro attr hattr
  obtain ⟨userattr, hmem, rfl⟩ := List.mem_map.mp hattr
  have htype := hlist.type_lt userattr hmem
  have hbase : tyUserattr = 0x300 := rfl
  change (userattrTag tag 0 userattr).type &&& 0x400 = 0
  rw [userattrTag_zero tag userattr (hlist.length_lt userattr hmem)]
  apply and_splice_of_lt
  simp only [hbase]
  omega

/-- The tail of a directory with attributes applied is the one a scan finds once
they are appended. -/
theorem plainScan_processTag {mattr : Mattr} (hbuilt : Built disk mattr) (log : List Attr)
    (dir : Mdir) (htail : (plainScan log).tail = dir.tail) :
    (plainScan (log ++ processTag disk 0 mattr.tag mattr.buffer)).tail =
      (applyMattr dir mattr).tail := by
  cases hbuilt with
  | plain hplain =>
      cases hplain with
      | @noop tag buffer htype =>
          have hne : tag.type1 ≠ tyTail := by
            rw [Tag.type1, htype]
            decide
          rw [processTag_noop _ _ _ htype, List.append_nil, applyMattr_tail_of_ne dir hne, htail]
      | data hwf =>
          rw [processTag_data _ _ _ hwf.type_ne, Tag.shift_zero,
            plainScan_append_singleton, step_tail, applyMattr_tail dir rfl, htail]
  | @move tag source htype hsource =>
      have hne : tag.type1 ≠ tyTail := by
        rw [Tag.type1, htype]
        decide
      rw [processTag_move _ _ _ htype, applyMattr_tail_of_ne dir hne, ← htail]
      exact (plainScan_append_low log (low_traverseMove hsource (by omega))).1
  | @userattrs tag list htype hlist =>
      have hne : tag.type1 ≠ tyTail := by
        rw [Tag.type1, htype]
        decide
      rw [processTag_userattrs _ _ _ htype, applyMattr_tail_of_ne dir hne, ← htail]
      exact (plainScan_append_low log (low_userattrs hlist)).1

theorem plainScan_traverseAttrs {attrs : List Mattr} (hbuilt : ∀ mattr ∈ attrs, Built disk mattr)
    (log : List Attr) (dir : Mdir) (htail : (plainScan log).tail = dir.tail) :
    (plainScan (log ++ traverseAttrs disk attrs)).tail = (attrs.foldl applyMattr dir).tail := by
  induction attrs generalizing log dir with
  | nil => simpa [traverseAttrs] using htail
  | cons mattr attrs ih =>
      obtain ⟨hmattr, hattrs⟩ := List.forall_mem_cons.mp hbuilt
      rw [traverseAttrs, List.flatMap_cons, ← List.append_assoc]
      exact ih hattrs _ _ (plainScan_processTag hmattr log dir htail)

theorem stateless_processTag {mattr : Mattr} (hbuilt : Built disk mattr)
    (hstate : mattr.tag.type ≠ tyMovestate) :
    Stateless (processTag disk 0 mattr.tag mattr.buffer) := by
  cases hbuilt with
  | plain hplain =>
      cases hplain with
      | noop htype =>
          rw [processTag_noop _ _ _ htype]
          exact fun _ h => absurd h List.not_mem_nil
      | @data tag payload hwf =>
          rw [processTag_data _ _ _ hwf.type_ne, Tag.shift_zero]
          intro attr hattr
          rw [List.mem_singleton.mp hattr, and_type_of_lt hwf.type_lt]
          exact hstate
  | @move tag source htype hsource =>
      rw [processTag_move _ _ _ htype]
      exact (low_traverseMove hsource (by omega)).stateless
  | @userattrs tag list htype hlist =>
      rw [processTag_userattrs _ _ _ htype]
      exact (low_userattrs hlist).stateless

theorem stateless_traverseAttrs {attrs : List Mattr} (hbuilt : ∀ mattr ∈ attrs, Built disk mattr)
    (hstate : ∀ mattr ∈ attrs, mattr.tag.type ≠ tyMovestate) :
    Stateless (traverseAttrs disk attrs) := by
  intro attr hattr
  obtain ⟨mattr, hmem, hattr⟩ := List.mem_flatMap.mp hattr
  exact stateless_processTag (hbuilt mattr hmem) (hstate mattr hmem) attr hattr

end

/-! ## The append -/

theorem respects_readSources (attrs : List Mattr) : Respects Reads (readSources attrs) := by
  induction attrs with
  | nil => exact Respects.pure _
  | cons mattr attrs ih =>
      rw [readSources]
      split
      · exact Respects.bind (steady_readLog _).reads fun _ => ih
      · exact ih

theorem outcome_appendTags (dir : Mdir) (attrs : List Mattr) (lfs : Lfs) :
    Outcome (appendTags dir attrs)
      (fun result lfs' => result.1 = traverseAttrs lfs.disk attrs ∧
        commitAttrs lfs.cfg.commitEnd dir.off result.1 = .ok result.2 ∧ Reads lfs lfs')
      (fun _ lfs' => Reads lfs lfs') lfs := by
  rw [appendTags, outcome_bind]
  apply (respects_readSources attrs lfs).imp _ fun _ _ h => h
  intro _ lfs' hreads
  have hdisk : lfs'.disk = lfs.disk := by rw [hreads.eq]
  have hcfg : lfs'.cfg = lfs.cfg := by rw [hreads.eq]
  rw [outcome_bind, outcome_get, outcome_bind, hdisk, hcfg]
  cases hoff : commitAttrs lfs.cfg.commitEnd dir.off (traverseAttrs lfs.disk attrs) with
  | ok off => exact ⟨rfl, hoff, hreads⟩
  | error e => exact hreads

/-- The current block of `dir` behind one more commit. -/
def appendImage (lfs : Lfs) (dir : Mdir) (tags : List Attr) (off : ℕ) (erased : Bool) :
    BlockImage :=
  { lfs.disk dir.pair.1 with
    commits := (lfs.disk dir.pair.1).commits ++ [{ tags := tags, off := off }], erased := erased }

theorem lfsDirCommitcrc_le {cfg : Config} {off off' : ℕ} {erased : Bool}
    (hcommit : lfsDirCommitcrc cfg off = .ok (off', erased)) : off ≤ off' := by
  unfold lfsDirCommitcrc at hcommit
  dsimp only at hcommit
  split at hcommit
  · cases hcommit
  · rename_i hgo
    cases hcommit
    exact commitcrcGo_le hgo

theorem outcome_appendProg (dir : Mdir) (tags : List Attr) (off : ℕ) (lfs : Lfs) :
    Outcome (appendProg dir tags off)
      (fun off' lfs' => off ≤ off' ∧ ∃ erased,
        Wrote dir.pair.1 (appendImage lfs dir tags off' erased) lfs lfs')
      (fun failure lfs' => failure = .error .io ∨ Alike dir.pair.1 lfs lfs') lfs := by
  rw [appendProg, outcome_bind, outcome_get, outcome_bind]
  cases hcrc : lfsDirCommitcrc lfs.cfg off with
  | error e => exact Or.inr (.refl _ _)
  | ok result =>
      obtain ⟨off', erased⟩ := result
      rw [liftExcept, outcome_pure]
      dsimp only
      apply outcome_ite
      · intro _
        rw [outcome_bind]
        apply (outcome_devProg _ _ _ lfs).imp
        · intro _ lfs' hwrote
          exact ⟨lfsDirCommitcrc_le hcrc, erased, hwrote⟩
        · intro failure lfs' hfails
          apply hfails.elim
          · exact fun hwrote => Or.inr (.of_wrote hwrote)
          · exact fun hlate => Or.inl hlate.1
      · exact fun _ => Or.inr (.refl _ _)

theorem outcome_spoil (block : Block) (lfs : Lfs) :
    Outcome (spoil block) (fun _ lfs' => Alike block lfs lfs') (fun _ _ => False) lfs := by
  rw [spoil, outcome_modify]
  exact .of_wrote ⟨rfl, List.suffix_rfl⟩

/-- What is left of the global state to be written. -/
def pendingDelta (lfs : Lfs) : Gstate := ((lfs.gstate.xor lfs.gdisk).xor lfs.gdelta).dropSize

/-- The MOVESTATE tag of an append. -/
def appendState (lfs : Lfs) (dir : Mdir) : List Attr :=
  if (pendingDelta lfs).iszero then []
  else [(movestateTag, .gstate ((pendingDelta lfs).xor (share lfs dir)))]

/-- How an append ends. -/
structure Appended (base : Lfs) (dir : Mdir) (attrs : List Mattr) (result : Mdir) (lfs' : Lfs) :
    Prop where
  eq : result = { dir with off := result.off }
  off_le : dir.off ≤ result.off
  suffix : lfs'.script <:+ base.script
  wrote : ∃ erased, lfs' = { base with
    script := lfs'.script
    disk := Function.update base.disk dir.pair.1 (appendImage base dir
      (traverseAttrs base.disk attrs ++ appendState base dir) result.off erased)
    gdisk := base.gstate
    gdelta := {} }

/-- The end of an append, behind the tags. -/
def appendRest (dir : Mdir) (tags : List Attr) (off : ℕ) : FsM (Option Mdir) := do
  match ← tryError (appendProg dir tags off) with
  | .error e =>
      if e = .noSpace ∨ e = .corrupt then
        spoil dir.pair.1
        return none
      else
        failWith e
  | .ok off =>
      modify fun lfs => { lfs with gdisk := lfs.gstate, gdelta := {} }
      return some { dir with off := off }

theorem appendCommit_appended (dir : Mdir) (attrs : List Mattr) (base : Lfs) :
    Outcome (appendCommit dir attrs)
      (fun result lfs' => match result with
        | some dir' => Appended base dir attrs dir' lfs'
        | none => Alike dir.pair.1 base lfs')
      (fun _ _ => True) base := by
  have hspoil : ∀ lfs, Alike dir.pair.1 base lfs →
      Outcome (do
          spoil dir.pair.1
          return none)
        (fun result lfs' => match result with
          | some dir' => Appended base dir attrs dir' lfs'
          | none => Alike dir.pair.1 base lfs')
        (fun _ _ => True) lfs := by
    intro lfs halike
    rw [outcome_bind]
    exact (outcome_spoil dir.pair.1 lfs).imp (fun _ _ h => halike.trans h) fun _ _ _ => trivial
  rw [appendCommit, outcome_bind]
  apply (outcome_appendTags dir attrs base).tryError
  · intro result lfs1 h
    obtain ⟨tags, off⟩ := result
    obtain ⟨htags, hoff, hreads1⟩ := h
    dsimp only at htags hoff ⊢
    have hle := (commitAttrs_le hoff).1
    have hdelta : pendingDelta lfs1 = pendingDelta base := by
      rw [hreads1.eq]
      rfl
    -- the program access, behind all tags
    have hprog : ∀ lfs2 tags' off', Reads base lfs2 →
        tags' = traverseAttrs base.disk attrs ++ appendState base dir → dir.off ≤ off' →
        Outcome (appendRest dir tags' off')
          (fun result lfs' => match result with
            | some dir' => Appended base dir attrs dir' lfs'
            | none => Alike dir.pair.1 base lfs')
          (fun _ _ => True) lfs2 := by
      intro lfs2 tags' off' hreads2 htags' hle'
      rw [appendRest, outcome_bind]
      apply (outcome_appendProg dir tags' off' lfs2).tryError
      · intro off'' lfs3 h
        obtain ⟨hle'', erased, hwrote⟩ := h
        rw [outcome_bind, outcome_modify]
        refine ⟨rfl, hle'.trans hle'', hwrote.suffix.trans hreads2.suffix, erased, ?_⟩
        rw [hwrote.eq, htags', hreads2.eq]
        rfl
      · intro e lfs3 hfails
        apply outcome_ite
        · intro hcaught
          apply hspoil
          apply (Alike.of_reads hreads2).trans
          apply hfails.resolve_left
          intro hio
          cases hio
          exact hcaught.elim (fun h => by cases h) fun h => by cases h
        · exact fun _ => trivial
      · exact fun _ _ _ _ => trivial
    rw [outcome_bind, outcome_get]
    apply outcome_ite
    · intro hzero
      change (pendingDelta lfs1).iszero = true at hzero
      rw [outcome_bind, outcome_pure]
      apply hprog lfs1 tags off hreads1 _ hle
      rw [hdelta] at hzero
      rw [htags, appendState, if_pos hzero, List.append_nil]
    · intro hzero
      change ¬(pendingDelta lfs1).iszero = true at hzero
      rw [outcome_bind, lfsDirGetgstate, outcome_bind]
      apply (outcome_readLog dir lfs1).imp _ fun _ _ _ => trivial
      intro log lfs2 hread
      rw [outcome_pure]
      have hcommit : ∀ stop, lfsDirCommitattr stop off movestateTag = .error .noSpace ∨
          lfsDirCommitattr stop off movestateTag = .ok (off + movestateTag.dsize) := by
        intro stop
        unfold lfsDirCommitattr
        split
        · exact Or.inl rfl
        · exact Or.inr rfl
      have hreads2 := hreads1.trans hread.2
      apply (hcommit lfs1.cfg.commitEnd).elim
      · intro herror
        rw [herror, outcome_bind, outcome_pure]
        exact hspoil lfs2 (.of_reads hreads2)
      · intro hok
        rw [hok, outcome_bind, outcome_pure]
        apply hprog lfs2 _ _ hreads2 _ (hle.trans (Nat.le_add_right _ _))
        rw [hdelta] at hzero
        rw [htags, appendState, if_neg hzero, hread.1, ← hdelta]
        congr 4
        rw [hreads1.eq]
        rfl
  · intro e lfs1 hreads
    apply outcome_ite
    · exact fun _ => hspoil lfs1 (.of_reads hreads)
    · exact fun _ => trivial
  · exact fun _ _ _ _ => trivial

/-! ## A pair after an append -/

/-- `dir` is what a fetch of its pair gives. -/
structure Current (disk : Block → BlockImage) (dir : Mdir) : Prop where
  locate : Littlefs.locate disk dir.pair = some dir.pair
  view : { dir with erased := false } = viewOf disk dir.pair

/-- A block that gains commits stays the current one. -/
theorem locate_grow {disk disk' : Block → BlockImage} {pair : Pair} (hne : pair.1 ≠ pair.2)
    (hlocate : locate disk pair = some pair) (hrev : (disk' pair.1).rev = (disk pair.1).rev)
    (hcommits : (disk' pair.1).commits ≠ []) (hother : disk' pair.2 = disk pair.2) :
    locate disk' pair = some pair := by
  have hswap : pair.swap ≠ pair := fun h => hne (congrArg Prod.snd h)
  have hcommits' := locate_commits hlocate
  unfold locate at hlocate ⊢
  rw [hrev, hother]
  split
  · rename_i hlt
    rw [if_pos hlt] at hlocate
    by_cases hempty : (disk pair.2).commits = []
    · simp [hother, hempty, hcommits]
    · simp [hempty, hswap] at hlocate
  · simp [hcommits]

theorem log_of_le {image : BlockImage} {off : ℕ}
    (hle : ∀ commit ∈ image.commits, commit.off ≤ off) :
    image.log off = image.commits.flatMap Commit.tags := by
  have hall : image.commits.takeWhile (fun commit => decide (commit.off ≤ off)) =
      image.commits := by
    apply List.takeWhile_eq_self_iff.mpr
    exact fun commit hcommit => decide_eq_true (hle commit hcommit)
  rw [BlockImage.log, hall]

theorem ImageWf.off_le {image : BlockImage} (hwf : ImageWf image) :
    ∀ commit ∈ image.commits, commit.off ≤ (image.commits.getLast?.map Commit.off).getD 0 := by
  have hsorted := hwf.sorted
  generalize image.commits = commits at hsorted
  induction commits using List.reverseRecOn with
  | nil => exact fun _ h => absurd h List.not_mem_nil
  | append_singleton commits last _ =>
      rw [List.map_append, List.pairwise_append] at hsorted
      intro commit hcommit
      rw [List.getLast?_append, List.getLast?_singleton]
      apply (List.mem_append.mp hcommit).elim
      · intro hmem
        exact (hsorted.2.2 _ (List.mem_map_of_mem hmem) _ (List.mem_singleton_self _)).le
      · intro hmem
        rw [List.mem_singleton.mp hmem]
        exact le_refl _

namespace Current

variable {disk : Block → BlockImage} {dir : Mdir}

theorem off_eq (hcurrent : Current disk dir) :
    dir.off = ((disk dir.pair.1).commits.getLast?.map Commit.off).getD 0 :=
  congrArg Mdir.off hcurrent.view

theorem tail_eq (hcurrent : Current disk dir) :
    (plainScan ((disk dir.pair.1).commits.flatMap Commit.tags)).tail = dir.tail :=
  (congrArg Mdir.tail hcurrent.view).symm

/-- A directory that was fetched sees every commit of its block. -/
theorem log_eq (hcurrent : Current disk dir) (hwf : ImageWf (disk dir.pair.1)) :
    mdirLog disk dir = (disk dir.pair.1).commits.flatMap Commit.tags := by
  apply log_of_le
  rw [hcurrent.off_eq]
  exact hwf.off_le

theorem off_lt (hcurrent : Current disk dir) (hwf : ImageWf (disk dir.pair.1)) : 4 < dir.off := by
  have hcommits := locate_commits hcurrent.locate
  have hmem := List.getLast_mem hcommits
  have hlt := hwf.off_lt _ hmem
  rw [hcurrent.off_eq, List.getLast?_eq_getLast_of_ne_nil hcommits]
  exact hlt

end Current

theorem applyMattr_eq (dir : Mdir) (mattr : Mattr) : applyMattr dir mattr =
    { dir with count := (applyMattr dir mattr).count, split := (applyMattr dir mattr).split,
               tail := (applyMattr dir mattr).tail } := by
  unfold applyMattr
  split
  · rfl
  · split
    · rfl
    · split
      · split <;> rfl
      · rfl

/-- Attributes change the count and the tail of a directory only. -/
theorem foldl_applyMattr_eq (attrs : List Mattr) (dir : Mdir) : attrs.foldl applyMattr dir =
    { dir with count := (attrs.foldl applyMattr dir).count
               split := (attrs.foldl applyMattr dir).split
               tail := (attrs.foldl applyMattr dir).tail } := by
  induction attrs generalizing dir with
  | nil => rfl
  | cons mattr attrs ih =>
      rw [List.foldl_cons]
      have hrest := ih (applyMattr dir mattr)
      rw [applyMattr_eq dir mattr] at hrest ⊢
      exact hrest

section

variable {used : List Block} {base lfs' : Lfs} {dir result : Mdir} {attrs : List Mattr}

/-- An append adds what was left of the global state to the share of the pair. -/
theorem logGstate_append_appendState (base : Lfs) (dir : Mdir) {log tags : List Attr}
    (htags : Stateless tags) (hshare : share base dir = logGstate log) :
    ((logGstate (log ++ (tags ++ appendState base dir))).xor base.gstate).Same
      ((share base dir).xor (base.gdisk.xor base.gdelta)) := by
  have hpending : (pendingDelta base).dropSize.xor base.gstate.dropSize =
      base.gdisk.dropSize.xor base.gdelta.dropSize := by
    simp only [pendingDelta, Gstate.dropSize_xor, Gstate.dropSize_dropSize]
    calc ((base.gstate.dropSize.xor base.gdisk.dropSize).xor base.gdelta.dropSize).xor
          base.gstate.dropSize
        = (base.gdisk.dropSize.xor base.gdelta.dropSize).xor
            (base.gstate.dropSize.xor base.gstate.dropSize) := by ac_rfl
      _ = base.gdisk.dropSize.xor base.gdelta.dropSize := by rw [Gstate.xor_self, Gstate.xor_zero]
  unfold Gstate.Same
  rw [← List.append_assoc, appendState]
  split
  · rename_i hzero
    have hzero : pendingDelta base = {} := by simpa [Gstate.iszero] using hzero
    rw [hzero, Gstate.dropSize_zero, Gstate.zero_xor] at hpending
    rw [List.append_nil, logGstate_append htags, ← hshare]
    simp only [Gstate.dropSize_xor, hpending]
  · rw [logGstate_movestateTag]
    simp only [Gstate.dropSize_xor]
    rw [← hpending]
    ac_rfl

theorem appendState_scan (base : Lfs) (dir : Mdir) (log : List Attr) :
    plainScan (log ++ appendState base dir) = plainScan log := by
  unfold appendState
  split
  · rw [List.append_nil]
  · exact plainScan_append_movestateTag log _

namespace Appended

theorem pair (happended : Appended base (attrs.foldl applyMattr dir) attrs result lfs') :
    result.pair = dir.pair := by
  have happly := foldl_applyMattr_eq attrs dir
  rw [happended.eq]
  change (attrs.foldl applyMattr dir).pair = dir.pair
  rw [happly]

theorem start_le (happended : Appended base (attrs.foldl applyMattr dir) attrs result lfs') :
    dir.off ≤ result.off := by
  have hle := happended.off_le
  rw [foldl_applyMattr_eq attrs dir] at hle
  exact hle

theorem other (happended : Appended base (attrs.foldl applyMattr dir) attrs result lfs')
    {block : Block} (hne : block ≠ dir.pair.1) : lfs'.disk block = base.disk block := by
  obtain ⟨erased, hwrote⟩ := happended.wrote
  rw [foldl_applyMattr_eq attrs dir] at hwrote
  rw [hwrote]
  exact Function.update_of_ne hne ..

theorem image (happended : Appended base (attrs.foldl applyMattr dir) attrs result lfs') :
    ∃ erased, lfs'.disk dir.pair.1 = { base.disk dir.pair.1 with
      commits := (base.disk dir.pair.1).commits ++ [{
        tags := traverseAttrs base.disk attrs ++ appendState base (attrs.foldl applyMattr dir)
        off := result.off }]
      erased := erased } := by
  have hpair : (attrs.foldl applyMattr dir).pair = dir.pair := by rw [foldl_applyMattr_eq]
  obtain ⟨erased, hwrote⟩ := happended.wrote
  refine ⟨erased, ?_⟩
  rw [hwrote]
  dsimp only
  rw [hpair, Function.update_self, appendImage, hpair]

theorem view (hcommitting : Committing used base dir attrs) (hcurrent : Current base.disk dir)
    (happended : Appended base (attrs.foldl applyMattr dir) attrs result lfs') :
    viewAt lfs'.disk dir.pair = some (viewOf lfs'.disk dir.pair) := by
  obtain ⟨erased, himage⟩ := happended.image
  have hcommits : (lfs'.disk dir.pair.1).commits ≠ [] := by
    rw [himage]
    exact List.append_ne_nil_of_right_ne_nil _ (List.cons_ne_nil _ _)
  have hlocate : locate lfs'.disk dir.pair = some dir.pair :=
    locate_grow hcommitting.ne hcurrent.locate (by rw [himage]) hcommits
      (happended.other hcommitting.ne.symm)
  have hnull : lfsPairIsnull dir.pair = false :=
    lfsPairIsnull_of_lt hcommitting.word hcommitting.fst_lt hcommitting.snd_lt
  exact viewAt_eq_some.mpr ⟨hnull, hlocate, rfl⟩

theorem off (happended : Appended base (attrs.foldl applyMattr dir) attrs result lfs') :
    (viewOf lfs'.disk dir.pair).off = result.off := by
  obtain ⟨erased, himage⟩ := happended.image
  simp [viewOf, mdirOf, himage]

/-- The log of the block gains the attributes. -/
theorem log (hcommitting : Committing used base dir attrs) (hcurrent : Current base.disk dir)
    (happended : Appended base (attrs.foldl applyMattr dir) attrs result lfs') :
    mdirLog lfs'.disk (viewOf lfs'.disk dir.pair) = mdirLog base.disk dir ++
      (traverseAttrs base.disk attrs ++ appendState base (attrs.foldl applyMattr dir)) ∧
    (lfs'.disk dir.pair.1).commits.flatMap Commit.tags =
      mdirLog lfs'.disk (viewOf lfs'.disk dir.pair) := by
  have hwf := hcommitting.images dir.pair.1 hcommitting.fst_lt
  obtain ⟨erased, himage⟩ := happended.image
  have htags : mdirLog lfs'.disk (viewOf lfs'.disk dir.pair) =
      (lfs'.disk dir.pair.1).commits.flatMap Commit.tags := by
    rw [mdirLog, happended.off, viewOf_pair]
    apply log_of_le
    rw [himage]
    intro commit hcommit
    apply (List.mem_append.mp hcommit).elim
    · intro hmem
      apply (hwf.off_le commit hmem).trans
      rw [← hcurrent.off_eq]
      exact happended.start_le
    · intro hmem
      rw [List.mem_singleton.mp hmem]
  refine ⟨?_, htags.symm⟩
  rw [htags, himage, hcurrent.log_eq hwf]
  simp

end Appended

/-- A directory whose attributes were appended. -/
theorem Appended.replaced (hcommitting : Committing used base dir attrs)
    (hcurrent : Current base.disk dir)
    (happended : Appended base (attrs.foldl applyMattr dir) attrs result lfs') :
    Replaced used base dir (attrs.foldl applyMattr dir).tail result .ok
      [viewOf lfs'.disk dir.pair] lfs' := by
  have happly := foldl_applyMattr_eq attrs dir
  have hshare : share base (attrs.foldl applyMattr dir) = share base dir :=
    share_congr (by rw [happly]) (by rw [happly]) rfl
  have hwf := hcommitting.images dir.pair.1 hcommitting.fst_lt
  have hlt : 4 < result.off := (hcurrent.off_lt hwf).trans_le happended.start_le
  have hview := Appended.view hcommitting hcurrent happended
  obtain ⟨hviewlog, htags⟩ := Appended.log hcommitting hcurrent happended
  obtain ⟨erased, hwrote⟩ := happended.wrote
  have htail : (viewOf lfs'.disk dir.pair).tail = (attrs.foldl applyMattr dir).tail := by
    change (plainScan ((lfs'.disk dir.pair.1).commits.flatMap Commit.tags)).tail = _
    rw [htags, hviewlog, ← List.append_assoc, appendState_scan]
    apply plainScan_traverseAttrs hcommitting.built
    rw [hcurrent.log_eq hwf]
    exact hcurrent.tail_eq
  refine ⟨?_, ?_, ?_, ?_, List.cons_ne_nil _ _, ?_, ?_, ?_, ?_, ?_, ?_, ?_⟩
  · obtain ⟨hvalid, hroom, hclear⟩ := hcommitting.guarded.inv
    rw [hwrote]
    exact ⟨hvalid, hroom, hclear⟩
  · intro block h
    rw [hwrote] at h
    exact h
  · exact fun block _ hfst _ => happended.other hfst
  · rw [happended.pair]
    apply Reaches.cons hview
    rw [htail]
    exact .nil (.refl _)
  · have hnil : (blocksOf []).Nodup := List.nodup_nil
    apply nodup_blocksOf_cons hnil
    · exact hcommitting.ne
    · exact List.not_mem_nil
    · exact List.not_mem_nil
  · intro block hblock
    change block ∈ [dir.pair.1, dir.pair.2] at hblock
    rw [List.mem_cons, List.mem_singleton] at hblock
    exact hblock.imp id Or.inl
  · exact Or.inr ⟨rfl, Or.inl happended.pair⟩
  · have hgdisk : lfs'.gdisk = base.gstate := by rw [hwrote]
    have hgdelta : lfs'.gdelta = {} := by rw [hwrote]
    have hnew : share lfs' (viewOf lfs'.disk dir.pair) =
        logGstate (mdirLog base.disk dir ++ (traverseAttrs base.disk attrs ++
          appendState base (attrs.foldl applyMattr dir))) := by
      rw [share, readableLog, if_neg (by rw [happended.off]; exact Nat.not_le_of_lt hlt), hviewlog]
    have hold : share base (attrs.foldl applyMattr dir) = logGstate (mdirLog base.disk dir) := by
      rw [hshare, share, readableLog, if_neg (Nat.not_le_of_lt (hcurrent.off_lt hwf))]
    rw [shares_cons, shares_nil, Gstate.xor_zero, hnew, hgdisk, hgdelta, Gstate.xor_zero, ← hshare]
    exact logGstate_append_appendState base _
      (stateless_traverseAttrs hcommitting.built hcommitting.stateless) hold
  · rw [hwrote]
  · rw [hwrote]
  · intro _
    rw [hwrote]

end

/-! ## The whole commit -/

/-- Accesses to the device and changes of the open handles. -/
structure Handles (lfs lfs' : Lfs) : Prop where
  eq : lfs' = { lfs with script := lfs'.script, mlist := lfs'.mlist }
  suffix : lfs'.script <:+ lfs.script

instance : Std.Refl Handles := ⟨fun _ => ⟨rfl, List.suffix_rfl⟩⟩

instance : IsTrans Lfs Handles :=
  ⟨fun _ _ _ hleft hright => ⟨by rw [hright.eq, hleft.eq], hright.suffix.trans hleft.suffix⟩⟩

theorem handles_modifyHandle (key : ℕ) (update : Handle → Handle) :
    Respects Handles (modifyHandle key update) :=
  Respects.modify fun _ => ⟨rfl, List.suffix_rfl⟩

theorem handles_lfsDirFetch (pair : Pair) : Respects Handles (lfsDirFetch pair) :=
  (steady_lfsDirFetch pair).reads.weaken fun _ _ hreads => ⟨by rw [hreads.eq], hreads.suffix⟩

theorem handles_getHandle (key : ℕ) : Respects Handles (getHandle key) := by
  rw [getHandle]
  apply Respects.bind Respects.get
  intro lfs
  split
  · exact Respects.pure _
  · exact Respects.throw _

theorem handles_chaseTails (key fuel : ℕ) : Respects Handles (chaseTails key fuel) := by
  induction fuel with
  | zero => exact Respects.throw _
  | succ fuel ih =>
      rw [chaseTails]
      apply Respects.bind Respects.get
      intro lfs
      apply Respects.bind (handles_getHandle key)
      intro handle
      have hrest : Respects Handles (do
          let m ← lfsDirFetch handle.m.tail
          modifyHandle key fun handle => { handle with m := m }
          chaseTails key fuel) := by
        apply Respects.bind (handles_lfsDirFetch _)
        intro m
        exact Respects.bind (handles_modifyHandle _ _) fun _ => ih
      apply Respects.ite
      · apply Respects.ite
        · exact Respects.bind (handles_modifyHandle _ _) fun _ => hrest
        · exact hrest
      · exact Respects.pure _

theorem handles_relocatingcommitFixmlist (dir : Mdir) (pair : Pair) (self : Option ℕ)
    (attrs : List Mattr) : Respects Handles (relocatingcommitFixmlist dir pair self attrs) := by
  rw [relocatingcommitFixmlist]
  apply Respects.bind Respects.get
  intro lfs
  apply Respects.forM
  intro handle
  apply Respects.ite
  · exact Respects.bind (handles_modifyHandle _ _) fun _ => handles_chaseTails _ _
  · exact Respects.pure _

theorem respects_lfsFsPred (pair : Pair) : Respects Reads (lfsFsPred pair) := by
  have hgo : ∀ fuel tail pdir tortoise,
      Respects Reads (lfsFsPredGo pair fuel tail pdir tortoise) := by
    intro fuel
    induction fuel with
    | zero => exact fun _ _ _ => Respects.throw _
    | succ fuel ih =>
        intro tail pdir tortoise
        rw [lfsFsPredGo.eq_def]
        apply Respects.ite
        · exact Respects.throw _
        · cases lfsTortoiseDetectcycles tail tortoise with
          | none => exact Respects.throw _
          | some tortoise =>
              apply Respects.ite
              · cases pdir with
                | some pdir => exact Respects.pure _
                | none =>
                    apply Respects.bind (steady_lfsDirFetch tail).reads
                    intro pdir
                    apply Respects.ite
                    · exact Respects.bind (Respects.throw _) fun _ => Respects.pure _
                    · exact Respects.pure _
              · exact Respects.bind (steady_lfsDirFetch tail).reads fun pdir => ih _ _ _
  exact Respects.bind Respects.get fun lfs => hgo _ _ _ _

section

variable {used : List Block} {base middle lfs' : Lfs} {dir result : Mdir} {attrs : List Mattr}

theorem Committing.applied (hcommitting : Committing used base dir attrs) :
    Committing used base (attrs.foldl applyMattr dir) attrs := by
  obtain ⟨hcfg, hword, hguarded, hheld, hne, hfst, hsnd, hrev, himages, hlog, hbuilt, hstate,
    hsources⟩ := hcommitting
  rw [foldl_applyMattr_eq]
  exact ⟨hcfg, hword, hguarded, hheld, hne, hfst, hsnd, hrev, himages, hlog, hbuilt, hstate,
    hsources⟩

theorem Replaced.of_applied {tail : Pair} {state : CommitState} {news : List Mdir}
    (hreplaced : Replaced used base (attrs.foldl applyMattr dir) tail result state news lfs') :
    Replaced used base dir tail result state news lfs' := by
  have hpair : (attrs.foldl applyMattr dir).pair = dir.pair := by rw [foldl_applyMattr_eq]
  have hshare : share base (attrs.foldl applyMattr dir) = share base dir := by
    apply share_congr
    · rw [hpair]
    · rw [foldl_applyMattr_eq]
    · rfl
  obtain ⟨hinv, hahead, hframe, hreaches, hne, hapart, hblocks, hstays, hconserves, hgstate,
    hgdelta, hgdisk⟩ := hreplaced
  rw [hpair] at hframe hblocks hstays
  rw [hshare] at hconserves
  exact ⟨hinv, hahead, hframe, hreaches, hne, hapart, hblocks, hstays, hconserves, hgstate,
    hgdelta, hgdisk⟩

theorem Replaced.handles {tail : Pair} {state : CommitState} {news : List Mdir}
    (hreplaced : Replaced used base dir tail result state news middle)
    (hhandles : Handles middle lfs') :
    Replaced used base dir tail result state news lfs' := by
  obtain ⟨⟨hvalid, hroom, hclear⟩, hahead, hframe, hreaches, hne, hapart, hblocks, hstays,
    hconserves, hgstate, hgdelta, hgdisk⟩ := hreplaced
  rw [hhandles.eq]
  refine ⟨⟨hvalid, hroom, hclear⟩, hahead, hframe, hreaches, hne, hapart, ?_, hstays, hconserves,
    hgstate, hgdelta, hgdisk⟩
  exact fun block hblock => (hblocks block hblock).imp id (Or.imp id fun htaken =>
    htaken.mono fun _ h => h)

/-- The directory to be committed, as a fetch gave it or just allocated. -/
structure Calling (used : List Block) (base : Lfs) (dir : Mdir) (attrs : List Mattr) : Prop where
  committing : Committing used base dir attrs
  current : dir.erased = true → Current base.disk dir
  count_lt : (attrs.foldl applyMattr dir).count < 2 ^ 16

/-- How `lfs_dir_relocatingcommit` ends when it succeeds: the pair is left to its
predecessor, or it was rewritten. -/
def Relocated (used : List Block) (base : Lfs) (dir : Mdir) (attrs : List Mattr)
    (result : Relocating) (lfs' : Lfs) : Prop :=
  if result.state = .dropped then Handles base lfs'
  else ∃ news, Replaced used base dir (attrs.foldl applyMattr dir).tail result.dir result.state
    news lfs'

/-- The compaction that a commit falls back on, with the handles set right behind it. -/
def compactingRest (dir : Mdir) (pdir : Option Mdir) (pair : Pair) (self : Option ℕ)
    (attrs : List Mattr) : FsM Relocating := do
  let (dir', state) ← lfsDirSplittingcompact dir attrs 0 dir.count
  relocatingcommitFixmlist dir' pair self attrs
  return { dir := dir', pdir := pdir, state := state }

/-- A commit whose directory is not dropped. -/
def commitRest (dir : Mdir) (pdir : Option Mdir) (pair : Pair) (self : Option ℕ)
    (attrs : List Mattr) : FsM Relocating := do
  let appended ←
    if dir.erased ∧ dir.count < 0xff then appendCommit dir attrs
    else pure none
  match appended with
  | some dir' =>
      relocatingcommitFixmlist dir' pair self attrs
      return { dir := dir', pdir := pdir, state := .ok }
  | none => compactingRest dir pdir pair self attrs

theorem lfsDirRelocatingcommit_relocated (hcalling : Calling used base dir attrs) (pair : Pair)
    (self : Option ℕ) (pdir : Option Mdir) :
    Outcome (lfsDirRelocatingcommit dir pair self attrs pdir)
      (fun result lfs' => Relocated used base dir attrs result lfs') (fun _ _ => True) base := by
  have hcommitting := hcalling.committing
  have hpair : (attrs.foldl applyMattr dir).pair = dir.pair := by rw [foldl_applyMattr_eq]
  have herased : (attrs.foldl applyMattr dir).erased = dir.erased := by rw [foldl_applyMattr_eq]
  -- the handles, once the pair is written
  have hfix : ∀ lfs1 dir' pdir' state news,
      Replaced used base dir (attrs.foldl applyMattr dir).tail dir' state news lfs1 →
      state ≠ .dropped →
      Outcome (do
          relocatingcommitFixmlist dir' pair self attrs
          return ({ dir := dir', pdir := pdir', state := state } : Relocating))
        (fun result lfs' => Relocated used base dir attrs result lfs') (fun _ _ => True) lfs1 := by
    intro lfs1 dir' pdir' state news hreplaced hstate
    rw [outcome_bind]
    apply (handles_relocatingcommitFixmlist dir' pair self attrs lfs1).imp _ fun _ _ _ => trivial
    intro _ lfs2 hhandles
    unfold Relocated
    rw [outcome_pure, if_neg hstate]
    exact ⟨news, hreplaced.handles hhandles⟩
  -- the compaction
  have hcompact : ∀ lfs1 pdir', Alike dir.pair.1 base lfs1 →
      Outcome (compactingRest (attrs.foldl applyMattr dir) pdir' pair self attrs)
        (fun result lfs' => Relocated used base dir attrs result lfs') (fun _ _ => True) lfs1 := by
    intro lfs1 pdir' halike
    rw [compactingRest, outcome_bind]
    apply (lfsDirSplittingcompact_replaced (halike.committing hcommitting).applied (Nat.zero_le _)
      hcalling.count_lt).imp _ fun _ _ _ => trivial
    intro result lfs2 h
    obtain ⟨news, hreplaced⟩ := h
    have hstate : result.2 ≠ .dropped := by
      intro hdropped
      apply hreplaced.stays.elim
      · exact fun h => by cases hdropped.symm.trans h
      · exact fun h => by cases hdropped.symm.trans h.1
    exact hfix lfs2 _ _ _ news (halike.replaced hreplaced.of_applied) hstate
  have hcommit : ∀ lfs1 pdir', Reads base lfs1 →
      Outcome (commitRest (attrs.foldl applyMattr dir) pdir' pair self attrs)
        (fun result lfs' => Relocated used base dir attrs result lfs') (fun _ _ => True) lfs1 := by
    intro lfs1 pdir' hreads
    have halike1 : Alike dir.pair.1 base lfs1 := .of_reads hreads
    apply outcome_ite
    · intro hcan
      rw [outcome_bind]
      apply (appendCommit_appended (attrs.foldl applyMattr dir) attrs lfs1).imp
        _ fun _ _ _ => trivial
      intro result lfs2 h
      cases result with
      | none =>
          have halike2 : Alike dir.pair.1 lfs1 lfs2 := hpair ▸ h
          exact hcompact lfs2 pdir' (halike1.trans halike2)
      | some dir' =>
          have hcurrent : Current lfs1.disk dir := by
            rw [hreads.eq]
            exact hcalling.current (herased ▸ hcan.1)
          have hreplaced := Appended.replaced (halike1.committing hcommitting) hcurrent h
          exact hfix lfs2 _ _ _ _ (halike1.replaced hreplaced) (by decide)
    · intro _
      rw [outcome_bind, outcome_pure]
      exact hcompact lfs1 pdir' halike1
  rw [lfsDirRelocatingcommit]
  dsimp only
  apply outcome_ite
  · intro _
    apply outcome_ite
    · intro _
      rw [outcome_bind]
      trivial
    · intro _
      rw [outcome_bind]
      apply ((respects_lfsFsPred _) base).tryError
      · intro pred lfs1 hreads
        apply outcome_ite
        · intro _
          rw [outcome_bind]
          apply (handles_relocatingcommitFixmlist _ pair self attrs lfs1).imp _ fun _ _ _ => trivial
          intro _ lfs2 hhandles
          have hreads1 : Handles base lfs1 := ⟨by rw [hreads.eq], hreads.suffix⟩
          unfold Relocated
          rw [outcome_pure, if_pos rfl]
          exact IsTrans.trans _ _ _ hreads1 hhandles
        · exact fun _ => hcommit lfs1 _ hreads
      · intro e lfs1 hreads
        cases e
        case noEntry => exact hcommit lfs1 _ hreads
        all_goals trivial
      · exact fun _ _ _ _ => trivial
  · exact fun _ => hcommit base _ (.refl base)

end

end Littlefs
