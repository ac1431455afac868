import Littlefs.Init
import Littlefs.TailCycles

/-!
# What mounting accepts

A survey of the tail list without the device: which superblock entries it holds, and
whether `lfs_mount_` takes them all.  Mounting gets to the end of the list exactly where
the survey does, and then what the latest superblock says is taken over.  No superblock
at all is accepted as well.
-/

namespace Littlefs

open Program Cycles

/-! ## A survey of the tail list -/

/-- The superblocks found so far with their pairs, the latest in front. -/
abbrev Superblocks := List (Pair × Superblock)

structure Limits where
  name : ℕ
  file : ℕ
  attr : ℕ
  deriving DecidableEq, Repr

/-- The limits of a superblock; a zero leaves the limit as it is. -/
def Limits.lower (limits : Limits) (sb : Superblock) : Limits where
  name := if sb.nameMax = 0 then limits.name else sb.nameMax
  file := if sb.fileMax = 0 then limits.file else sb.fileMax
  attr := if sb.attrMax = 0 then limits.attr else sb.attrMax

section

variable (cfg : Config) (disk : Block → BlockImage)

def limitsOf : Superblocks → Limits
  | [] => ⟨cfg.nameLimit, cfg.fileLimit, cfg.attrLimit⟩
  | (_, sb) :: older => (limitsOf older).lower sb

def countOf : Superblocks → ℕ
  | [] => cfg.blockCount
  | (_, sb) :: _ => sb.blockCount

def rootOf : Superblocks → Pair
  | [] => (blockNull, blockNull)
  | (pair, _) :: _ => pair

/-- A superblock that is accepted behind those found so far. -/
structure Suits (found : Superblocks) (sb : Superblock) : Prop where
  major : sb.version / 2 ^ 16 % 2 ^ 16 = diskVersion / 2 ^ 16
  minor : sb.version % 2 ^ 16 ≤ diskVersion % 2 ^ 16
  name : sb.nameMax ≤ (limitsOf cfg found).name
  file : sb.fileMax ≤ (limitsOf cfg found).file
  attr : sb.attrMax ≤ (limitsOf cfg found).attr
  count : cfg.blockCount = 0 ∨ sb.blockCount = cfg.blockCount
  size : sb.blockSize = cfg.blockSize

/-- The superblock of a pair that has the entry. -/
def superblockOf (dir : Mdir) : Option Superblock :=
  (getslice {} dir (if dir.off ≤ 4 then [] else mdirLog disk dir) ⟨0x7ff, true⟩
    superblockTag).map fun attr => attr.2.toSuperblock

/-- The superblocks behind one pair that was fetched. -/
inductive Took (found : Superblocks) (fetched : Fetched) : Superblocks → Prop
  | next (hresult : fetched.result = .next) : Took found fetched found
  | deleted {tag : Tag} (hresult : fetched.result = .found tag) (hdelete : tag.isdelete = true) :
      Took found fetched found
  | entry {tag : Tag} {sb : Superblock} (hresult : fetched.result = .found tag)
      (hdelete : tag.isdelete = false) (hsb : superblockOf disk fetched.dir = some sb)
      (hsuits : Suits cfg found sb)
      (hrange : ¬(sb.blockCount ≠ 0 ∧ sb.blockCount ≤ fetched.dir.pair.1)) :
      Took found fetched ((fetched.dir.pair, sb) :: found)

/-- Mounting gets to `tail` on a device without failures, and has found these superblocks. -/
inductive Surveyed : ℕ → Pair → Tortoise → Superblocks → Prop
  | start : Surveyed 0 (0, 1) {} []
  | pass {k : ℕ} {tail : Pair} {tortoise moved : Tortoise} {found found' : Superblocks}
      {fetched : Fetched} (hsurveyed : Surveyed k tail tortoise found)
      (hnull : lfsPairIsnull tail = false)
      (hdetect : lfsTortoiseDetectcycles tail tortoise = some moved)
      (hfetched : fetchmatch disk (countOf cfg found) {} superblockMatch tail = .ok fetched)
      (htook : Took cfg disk found fetched found') :
      Surveyed (k + 1) fetched.dir.tail moved found'

/-- The list ends, and holds these superblocks. -/
def Collected (found : Superblocks) : Prop :=
  ∃ k tail tortoise, Surveyed cfg disk k tail tortoise found ∧ lfsPairIsnull tail = true

/-- A mounted filesystem with a superblock that says what it is. -/
structure Usable (lfs : Lfs) : Prop where
  lists : ∃ sb older, Collected cfg disk ((lfs.root, sb) :: older) ∧
    lfs.blockCount = sb.blockCount ∧
    ∀ entry ∈ (lfs.root, sb) :: older,
      entry.2.version / 2 ^ 16 % 2 ^ 16 = diskVersion / 2 ^ 16 ∧
        entry.2.version % 2 ^ 16 ≤ diskVersion % 2 ^ 16 ∧ entry.2.blockSize = cfg.blockSize
  root : lfsPairIsnull lfs.root = false
  blockCount : lfs.blockCount ≠ 0
  name : lfs.nameMax ≤ cfg.nameLimit
  file : lfs.fileMax ≤ cfg.fileLimit
  attr : lfs.attrMax ≤ cfg.attrLimit

/-- What the superblocks found so far have left in the memory. -/
structure Matches (found : Superblocks) (lfs : Lfs) : Prop where
  disk : lfs.disk = disk
  gdisk : lfs.gdisk = {}
  root : lfs.root = rootOf found
  blockCount : lfs.blockCount = countOf cfg found
  limits : (⟨lfs.nameMax, lfs.fileMax, lfs.attrMax⟩ : Limits) = limitsOf cfg found

end

variable {cfg : Config} {disk : Block → BlockImage} {found : Superblocks} {lfs lfs' : Lfs}
  {dir : Mdir} {sb : Superblock}

theorem Matches.of_reads (hmatches : Matches cfg disk found lfs) (hreads : Reads lfs lfs') :
    Matches cfg disk found lfs' := by
  rw [hreads.eq]
  exact ⟨hmatches.disk, hmatches.gdisk, hmatches.root, hmatches.blockCount, hmatches.limits⟩

/-- How a step of mounting fails: with an error, and on a device that answers only where
`holds` does not. -/
def Fails (holds : Prop) (lfs : Lfs) (failure : Fault) : Prop :=
  (∃ e, failure = .error e) ∧ (Answered lfs → ¬holds)

/-! ## One superblock -/

theorem lookupAttr_superblock (hmatches : Matches cfg disk found lfs) :
    (lookupAttr lfs dir ⟨0x7ff, true⟩ superblockTag).map (fun attr => attr.2.toSuperblock) =
      superblockOf disk dir := by
  rw [lookupAttr, superblockOf, readableLog, hmatches.gdisk, hmatches.disk]

theorem outcome_checkLimit {stored configured : ℕ} :
    Outcome (checkLimit stored configured)
      (fun limit lfs' => lfs' = lfs ∧ stored ≤ configured ∧
        limit = if stored = 0 then configured else stored)
      (fun failure _ => failure = .error .invalid ∧ configured < stored) lfs := by
  rw [checkLimit]
  apply outcome_ite
  · intro hzero
    exact ⟨rfl, by omega, (if_pos hzero).symm⟩
  · intro hsome
    apply outcome_ite
    · exact fun hlt => ⟨rfl, hlt⟩
    · exact fun hle => ⟨rfl, Nat.not_lt.mp hle, (if_neg hsome).symm⟩

theorem outcome_mountSuperblock (hmatches : Matches cfg disk found lfs)
    (hdevice : OnDevice lfs dir.pair.1) :
    Outcome (mountSuperblock cfg dir)
      (fun _ lfs' => ∃ sb, superblockOf disk dir = some sb ∧ Suits cfg found sb ∧
        Matches cfg disk ((dir.pair, sb) :: found) lfs' ∧ (Answered lfs → Answered lfs'))
      (fun failure _ =>
        Fails (∃ sb, superblockOf disk dir = some sb ∧ Suits cfg found sb) lfs failure) lfs := by
  have hlookup : (lookupAttr lfs dir ⟨0x7ff, true⟩ superblockTag).map
      (fun attr => attr.2.toSuperblock) = superblockOf disk dir := lookupAttr_superblock hmatches
  rw [mountSuperblock, outcome_bind, outcome_modify, outcome_bind]
  apply (outcome_lfsDirGet dir _ _ _).imp
  · rintro attr middle ⟨hattr, hreads⟩
    have hattr' : lookupAttr lfs dir ⟨0x7ff, true⟩ superblockTag = some attr := hattr
    rw [hattr', Option.map_some] at hlookup
    dsimp only
    generalize attr.2.toSuperblock = sb at hlookup
    have hinvalid : ¬Suits cfg found sb → Fails
        (∃ sb, superblockOf disk dir = some sb ∧ Suits cfg found sb) lfs (.error .invalid) := by
      intro hnot
      refine ⟨⟨_, rfl⟩, fun _ hsuits => ?_⟩
      obtain ⟨sb', hsb', hsuits⟩ := hsuits
      rw [← hlookup] at hsb'
      cases hsb'
      exact hnot hsuits
    apply outcome_ite
    · intro hversion
      apply hinvalid
      intro hsuits
      exact hversion.elim (fun hmajor => hmajor hsuits.major)
        fun hminor => absurd hsuits.minor (Nat.not_le.mpr hminor)
    intro hversion
    simp only [not_or, not_not, Nat.not_lt] at hversion
    rw [outcome_bind, lfsFsPrepsuperblock, outcome_modify, outcome_bind, outcome_get, outcome_bind]
    dsimp only
    have hmiddle : middle.disk = disk ∧ middle.gdisk = {} ∧ middle.root = dir.pair := by
      rw [hreads.eq]
      exact ⟨hmatches.disk, hmatches.gdisk, rfl⟩
    have hlimits : (⟨middle.nameMax, middle.fileMax, middle.attrMax⟩ : Limits) =
        limitsOf cfg found := by
      rw [hreads.eq]
      exact hmatches.limits
    have hname : middle.nameMax = (limitsOf cfg found).name := congrArg Limits.name hlimits
    have hfile : middle.fileMax = (limitsOf cfg found).file := congrArg Limits.file hlimits
    have hattrMax : middle.attrMax = (limitsOf cfg found).attr := congrArg Limits.attr hlimits
    apply outcome_checkLimit.imp
    · rintro nameMax lfs1 ⟨hlfs1, hnameMax, hname'⟩
      subst hlfs1
      rw [outcome_bind, outcome_modify, outcome_bind]
      apply outcome_checkLimit.imp
      · rintro fileMax lfs2 ⟨hlfs2, hfileMax, hfile'⟩
        subst hlfs2
        rw [outcome_bind, outcome_modify, outcome_bind]
        apply outcome_checkLimit.imp
        · rintro attrMax lfs3 ⟨hlfs3, hattrMax', hattr'⟩
          subst hlfs3
          rw [outcome_bind, outcome_modify]
          apply outcome_ite
          · intro hcount
            apply hinvalid
            intro hsuits
            exact hsuits.count.elim hcount.1 hcount.2
          intro hcount
          rw [outcome_bind, outcome_modify]
          apply outcome_ite
          · exact fun hsize => hinvalid fun hsuits => hsize hsuits.size
          intro hsize
          refine ⟨sb, hlookup.symm, ?_, ?_, fun hall => hreads.answered hall⟩
          · refine ⟨hversion.1, hversion.2, ?_, ?_, ?_, ?_, not_not.mp hsize⟩
            · exact hname ▸ hnameMax
            · exact hfile ▸ hfileMax
            · exact hattrMax ▸ hattrMax'
            · exact or_iff_not_imp_left.mpr fun hfixed => by_contra fun hne => hcount ⟨hfixed, hne⟩
          · refine ⟨hmiddle.1, hmiddle.2.1, hmiddle.2.2, rfl, ?_⟩
            change (⟨nameMax, fileMax, attrMax⟩ : Limits) = (limitsOf cfg found).lower sb
            rw [Limits.lower, hname', hfile', hattr', ← hname, ← hfile, ← hattrMax]
        · rintro failure _ ⟨hfailure, hlt⟩
          rw [hfailure]
          apply hinvalid
          intro hsuits
          exact absurd hsuits.attr (Nat.not_le.mpr (hattrMax ▸ hlt))
      · rintro failure _ ⟨hfailure, hlt⟩
        rw [hfailure]
        apply hinvalid
        intro hsuits
        exact absurd hsuits.file (Nat.not_le.mpr (hfile ▸ hlt))
    · rintro failure _ ⟨hfailure, hlt⟩
      rw [hfailure]
      apply hinvalid
      intro hsuits
      exact absurd hsuits.name (Nat.not_le.mpr (hname ▸ hlt))
  · rintro failure lfs' ⟨_, hfailure⟩
    obtain ⟨rfl, hnone⟩ | ⟨rfl, hoff⟩ | ⟨rfl, hanswered⟩ := hfailure
    · have hnone' : lookupAttr lfs dir ⟨0x7ff, true⟩ superblockTag = none := hnone
      rw [hnone', Option.map_none] at hlookup
      refine ⟨⟨_, rfl⟩, fun _ hsuits => ?_⟩
      rw [← hlookup] at hsuits
      obtain ⟨sb, hsb, -⟩ := hsuits
      cases hsb
    · exact absurd hdevice hoff
    · exact ⟨⟨_, rfl⟩, fun hall => absurd hall hanswered⟩

/-! ## One pair -/

theorem Took.unique {fetched : Fetched} {found' found'' : Superblocks}
    (htook : Took cfg disk found fetched found') (htook' : Took cfg disk found fetched found'') :
    found' = found'' := by
  cases htook with
  | next hresult =>
      cases htook' with
      | next hresult' => rfl
      | deleted hresult' _ => cases hresult.symm.trans hresult'
      | entry hresult' _ _ _ _ => cases hresult.symm.trans hresult'
  | deleted hresult hdelete =>
      cases htook' with
      | next hresult' => cases hresult.symm.trans hresult'
      | deleted hresult' _ => rfl
      | entry hresult' hdelete' _ _ _ =>
          cases hresult.symm.trans hresult'
          cases hdelete.symm.trans hdelete'
  | entry hresult hdelete hsb _ _ =>
      cases htook' with
      | next hresult' => cases hresult.symm.trans hresult'
      | deleted hresult' hdelete' =>
          cases hresult.symm.trans hresult'
          cases hdelete.symm.trans hdelete'
      | entry _ _ hsb' _ _ =>
          cases hsb.symm.trans hsb'
          rfl

/-- The gstate of a pair is added where its block can be read. -/
theorem outcome_mountGstate (hmatches : Matches cfg disk found lfs) :
    Outcome (do
        let lfs ← get
        let gstate ← lfsDirGetgstate dir lfs.gstate
        modify fun lfs => { lfs with gstate := gstate })
      (fun _ lfs' => (4 < dir.off → OnDevice lfs dir.pair.1) ∧ Matches cfg disk found lfs' ∧
        (Answered lfs → Answered lfs'))
      (fun failure _ => Fails (OnDevice lfs dir.pair.1) lfs failure) lfs := by
  have hstored : ∀ (gstate : Gstate) (middle : Lfs), Reads lfs middle →
      Matches cfg disk found { middle with gstate := gstate } ∧
        (Answered lfs → Answered { middle with gstate := gstate }) := by
    intro gstate middle hreads
    have hmiddle := hmatches.of_reads hreads
    exact ⟨⟨hmiddle.disk, hmiddle.gdisk, hmiddle.root, hmiddle.blockCount, hmiddle.limits⟩,
      hreads.answered⟩
  rw [outcome_bind, outcome_get, outcome_bind, lfsDirGetgstate, outcome_bind]
  apply outcome_ite
  · intro hoff
    exact ⟨fun hlt => absurd hlt (Nat.not_lt.mpr hoff), hstored _ lfs (Reads.refl lfs)⟩
  · intro _
    rw [outcome_bind]
    apply (outcome_readBlock dir.pair.1 lfs).imp
    · exact fun _ middle ⟨_, hdevice, hreads⟩ => ⟨fun _ => hdevice, hstored _ middle hreads⟩
    · rintro failure lfs' ⟨_, hfailure⟩
      obtain ⟨rfl, hoff⟩ | ⟨rfl, hanswered⟩ := hfailure
      · exact ⟨⟨_, rfl⟩, fun _ => hoff⟩
      · exact ⟨⟨_, rfl⟩, fun hall => absurd hall hanswered⟩

theorem off_of_superblockOf (hsb : superblockOf disk dir = some sb) : 4 < dir.off := by
  by_contra hoff
  rw [superblockOf, if_pos (Nat.not_lt.mp hoff)] at hsb
  simp [getslice, getsliceGo] at hsb

theorem outcome_mountPair {fetched : Fetched} (hmatches : Matches cfg disk found lfs)
    (hdevice : OnDevice lfs fetched.dir.pair.1) :
    Outcome (mountPair cfg fetched)
      (fun _ lfs' => ∃ found', Took cfg disk found fetched found' ∧
        Matches cfg disk found' lfs' ∧ (Answered lfs → Answered lfs'))
      (fun failure _ => Fails (∃ found', Took cfg disk found fetched found') lfs failure) lfs := by
  have hsame : Took cfg disk found fetched found → Outcome (do
        let lfs ← get
        let gstate ← lfsDirGetgstate fetched.dir lfs.gstate
        modify fun lfs => { lfs with gstate := gstate })
      (fun _ lfs' => ∃ found', Took cfg disk found fetched found' ∧
        Matches cfg disk found' lfs' ∧ (Answered lfs → Answered lfs'))
      (fun failure _ => Fails (∃ found', Took cfg disk found fetched found') lfs failure) lfs := by
    intro htook
    apply (outcome_mountGstate hmatches).imp
    · exact fun _ lfs' hmounted => ⟨found, htook, hmounted.2⟩
    · intro failure lfs' hfails
      exact ⟨hfails.1, fun hall => absurd hdevice (hfails.2 hall)⟩
  rw [mountPair]
  cases hresult : fetched.result with
  | noEntry =>
      refine ⟨⟨_, rfl⟩, fun _ htook => ?_⟩
      obtain ⟨found', htook⟩ := htook
      cases htook with
      | next hresult' => cases hresult.symm.trans hresult'
      | deleted hresult' _ => cases hresult.symm.trans hresult'
      | entry hresult' _ _ _ _ => cases hresult.symm.trans hresult'
  | next => exact hsame (.next hresult)
  | found tag =>
      dsimp only
      cases hdelete : tag.isdelete with
      | true => exact hsame (.deleted hresult hdelete)
      | false =>
          have hentry : ∀ found', Took cfg disk found fetched found' →
              ∃ sb, superblockOf disk fetched.dir = some sb ∧ Suits cfg found sb ∧
                ¬(sb.blockCount ≠ 0 ∧ sb.blockCount ≤ fetched.dir.pair.1) := by
            intro found' htook
            cases htook with
            | next hresult' => cases hresult.symm.trans hresult'
            | deleted hresult' hdelete' =>
                cases hresult.symm.trans hresult'
                cases hdelete.symm.trans hdelete'
            | entry _ _ hsb hsuits hrange => exact ⟨_, hsb, hsuits, hrange⟩
          simp only [Bool.not_false, if_true]
          rw [outcome_bind]
          apply (outcome_mountSuperblock hmatches hdevice).imp
          · rintro _ middle ⟨sb, hsb, hsuits, hmatches', hanswered⟩
            apply (outcome_mountGstate hmatches').imp
            · rintro _ lfs' ⟨hread, hmounted, hanswered'⟩
              have hrange := hread (off_of_superblockOf hsb)
              rw [OnDevice, hmatches'.blockCount] at hrange
              exact ⟨_, .entry hresult hdelete hsb hsuits hrange, hmounted,
                fun hall => hanswered' (hanswered hall)⟩
            · intro failure lfs' hfails
              refine ⟨hfails.1, fun hall htook => hfails.2 (hanswered hall) ?_⟩
              obtain ⟨found', htook⟩ := htook
              obtain ⟨sb', hsb', -, hrange⟩ := hentry found' htook
              cases hsb.symm.trans hsb'
              rw [OnDevice, hmatches'.blockCount]
              exact hrange
          · intro failure lfs' hfails
            refine ⟨hfails.1, fun hall htook => hfails.2 hall ?_⟩
            obtain ⟨found', htook⟩ := htook
            obtain ⟨sb, hsb, hsuits, -⟩ := hentry found' htook
            exact ⟨sb, hsb, hsuits⟩

/-! ## One turn -/

theorem outcome_fetchSuperblock (hmatches : Matches cfg disk found lfs) (tail : Pair) :
    Outcome (lfsDirFetchmatch superblockMatch tail)
      (fun fetched lfs' => Reads lfs lfs' ∧
        fetchmatch disk (countOf cfg found) {} superblockMatch tail = .ok fetched)
      (fun failure _ => Fails (∃ fetched,
        fetchmatch disk (countOf cfg found) {} superblockMatch tail = .ok fetched) lfs failure)
      lfs := by
  have hsame : fetchmatch lfs.disk lfs.blockCount lfs.gdisk superblockMatch tail =
      fetchmatch disk (countOf cfg found) {} superblockMatch tail := by
    rw [hmatches.disk, hmatches.blockCount, hmatches.gdisk]
  rw [lfsDirFetchmatch, outcome_bind, outcome_get]
  apply outcome_ite
  · intro hrange
    refine ⟨⟨_, rfl⟩, fun _ hholds => ?_⟩
    obtain ⟨fetched, hfetched⟩ := hholds
    rw [← hsame] at hfetched
    rw [(fetchmatch_ok hfetched).1] at hrange
    cases hrange
  · intro hrange
    rw [outcome_bind]
    apply (outcome_readBlock tail.1 lfs).imp
    · rintro _ middle ⟨_, _, hreads⟩
      rw [hsame]
      cases hfetch : fetchmatch disk (countOf cfg found) {} superblockMatch tail with
      | ok fetched => exact ⟨hreads, rfl⟩
      | error e =>
          refine ⟨⟨e, rfl⟩, fun _ hholds => ?_⟩
          obtain ⟨_, hfetched⟩ := hholds
          cases hfetched
    · rintro failure lfs' ⟨_, hfailure⟩
      obtain ⟨rfl, hoff⟩ | ⟨rfl, hanswered⟩ := hfailure
      · apply absurd _ hoff
        rintro ⟨hcount, hle⟩
        simp [outOfRange, hcount, hle] at hrange
      · exact ⟨⟨_, rfl⟩, fun hall => absurd hall hanswered⟩

theorem outcome_mountTurn (hmatches : Matches cfg disk found lfs) (tail : Pair) :
    Outcome (mountTurn cfg () tail)
      (fun result lfs' => ∃ fetched found',
        fetchmatch disk (countOf cfg found) {} superblockMatch tail = .ok fetched ∧
          Took cfg disk found fetched found' ∧ result = .inr ((), fetched.dir.tail) ∧
            Matches cfg disk found' lfs' ∧ (Answered lfs → Answered lfs'))
      (fun failure _ => Fails (∃ fetched found',
        fetchmatch disk (countOf cfg found) {} superblockMatch tail = .ok fetched ∧
          Took cfg disk found fetched found') lfs failure) lfs := by
  rw [mountTurn, outcome_bind]
  apply (outcome_fetchSuperblock hmatches tail).imp
  · rintro fetched middle ⟨hreads, hfetched⟩
    have hmiddle := hmatches.of_reads hreads
    have hdevice : OnDevice middle fetched.dir.pair.1 := by
      rw [← hmiddle.disk, ← hmiddle.blockCount, ← hmiddle.gdisk] at hfetched
      exact onDevice_of_fetchmatch hfetched
    rw [outcome_bind]
    apply (outcome_mountPair hmiddle hdevice).imp
    · rintro _ lfs' ⟨found', htook, hmatches', hanswered⟩
      exact ⟨fetched, found', hfetched, htook, rfl, hmatches',
        fun hall => hanswered (hreads.answered hall)⟩
    · intro failure lfs' hfails
      refine ⟨hfails.1, fun hall hholds => hfails.2 (hreads.answered hall) ?_⟩
      obtain ⟨fetched', found', hfetched', htook⟩ := hholds
      cases hfetched.symm.trans hfetched'
      exact ⟨found', htook⟩
  · intro failure lfs' hfails
    refine ⟨hfails.1, fun hall hholds => hfails.2 hall ?_⟩
    obtain ⟨fetched, -, hfetched, -⟩ := hholds
    exact ⟨fetched, hfetched⟩

/-! ## The whole list -/

/-- The blocks that the tags of a device name are words. -/
def Worded (disk : Block → BlockImage) : Prop :=
  ∀ block, ∀ commit ∈ (disk block).commits, ∀ attr ∈ commit.tags,
    attr.2.toPair.1 < 2 ^ 32 ∧ attr.2.toPair.2 < 2 ^ 32

theorem scan_tail_word {cb : Attr → Option Ordering} {log : List Attr} {scan : Scan}
    (hlog : ∀ attr ∈ log, attr.2.toPair.1 < 2 ^ 32 ∧ attr.2.toPair.2 < 2 ^ 32)
    (hscan : scan.tail.1 < 2 ^ 32 ∧ scan.tail.2 < 2 ^ 32) :
    (log.foldl (Scan.step cb) scan).tail.1 < 2 ^ 32 ∧
      (log.foldl (Scan.step cb) scan).tail.2 < 2 ^ 32 := by
  induction log generalizing scan with
  | nil => exact hscan
  | cons attr log ih =>
      rw [List.foldl_cons]
      apply ih fun attr hmem => hlog attr (List.mem_cons_of_mem _ hmem)
      have hattr := hlog attr List.mem_cons_self
      have hselect : ∀ (scan : Scan) order, (scan.select attr.1 order).tail = scan.tail := by
        intro scan order
        rw [Scan.select]
        split_ifs <;> rfl
      have hstep : (scan.step cb attr).tail = (scan.step (fun _ => none) attr).tail := by
        rw [Scan.step, Scan.step]
        cases cb attr with
        | none => rfl
        | some order => exact hselect _ order
      rw [hstep, Scan.step]
      dsimp only
      split
      · split
        · exact hscan
        · exact hscan
      · split
        · exact hscan
        · split
          · exact hattr
          · exact hscan

theorem tail_word (hworded : Worded disk) (pair : Pair) :
    (mdirOf disk pair).tail.1 < 2 ^ 32 ∧ (mdirOf disk pair).tail.2 < 2 ^ 32 := by
  apply scan_tail_word
  · intro attr hmem
    obtain ⟨commit, hcommit, hattr⟩ := List.mem_flatMap.mp hmem
    exact hworded _ commit hcommit attr hattr
  · exact ⟨by decide, by decide⟩

/-- A survey passes the tails of the list, wherever it limits the blocks. -/
theorem Surveyed.passes (hworded : Worded disk) {k : ℕ} {tail : Pair} {tortoise : Tortoise}
    (hsurveyed : Surveyed cfg disk k tail tortoise found) :
    passAt disk (2 ^ 32 - 1) k = some (tail, tortoise) ∧ tail.1 < 2 ^ 32 ∧ tail.2 < 2 ^ 32 := by
  induction hsurveyed with
  | start => exact ⟨rfl, by decide, by decide⟩
  | @pass k tail tortoise moved found found' fetched _ hnull hdetect hfetched _ ih =>
      obtain ⟨hpass, hfirst, hsecond⟩ := ih
      obtain ⟨-, pair, hlocate, hdir⟩ := fetchmatch_ok hfetched
      have hrange : outOfRange (2 ^ 32 - 1) tail = false := by
        simp only [lfsPairIsnull, Bool.or_eq_false_iff, beq_eq_false_iff_ne] at hnull
        have hlt : ¬2 ^ 32 - 1 ≤ tail.1 :=
          Nat.not_le.mpr (Nat.lt_of_le_of_ne (Nat.le_sub_one_of_lt hfirst) hnull.1)
        have hlt' : ¬2 ^ 32 - 1 ≤ tail.2 :=
          Nat.not_le.mpr (Nat.lt_of_le_of_ne (Nat.le_sub_one_of_lt hsecond) hnull.2)
        rw [outOfRange, decide_eq_false hlt, decide_eq_false hlt']
        rfl
      have hnext : nextTail disk (2 ^ 32 - 1) tail = some fetched.dir.tail := by
        rw [hdir]
        exact nextTail_eq_some.mpr ⟨hnull, hrange, pair, hlocate, rfl⟩
      refine ⟨passAt_succ hpass hdetect hnext, ?_⟩
      rw [hdir]
      exact tail_word hworded pair

theorem Surveyed.lt (hworded : Worded disk) {k : ℕ} {tail : Pair} {tortoise : Tortoise}
    (hsurveyed : Surveyed cfg disk k tail tortoise found) : k < walkFuel (2 ^ 32) := by
  have hpass := (hsurveyed.passes hworded).1
  have hstops : passAt disk (2 ^ 32 - 1) (5 * (2 ^ 32 - 1 + 1) + 1) = none :=
    passAt_stops (by decide) (by decide)
  by_contra hle
  have hlarge : 5 * (2 ^ 32 - 1 + 1) + 1 ≤ k := by
    rw [walkFuel] at hle
    omega
  rw [passAt_none_of_le hlarge hstops] at hpass
  cases hpass

/-- Mounting ends with an error, or at the end of the list. -/
theorem outcome_mountTails (hworded : Worded disk) {fuel k : ℕ} {tail : Pair}
    {tortoise : Tortoise} (hsurveyed : Surveyed cfg disk k tail tortoise found)
    (hmatches : Matches cfg disk found lfs) (hfuel : walkFuel (2 ^ 32) ≤ k + fuel) :
    Outcome (mountTails cfg fuel tail tortoise)
      (fun _ lfs' => ∃ found', Collected cfg disk found' ∧ Matches cfg disk found' lfs')
      (fun failure _ => ∃ e, failure = .error e) lfs := by
  induction fuel generalizing k tail tortoise found lfs with
  | zero =>
      have hlt := hsurveyed.lt hworded
      omega
  | succ fuel ih =>
      rw [mountTails_eq, tailLoop]
      apply outcome_ite
      · exact fun hnull => ⟨found, ⟨k, tail, tortoise, hsurveyed, hnull⟩, hmatches⟩
      · intro hnull
        cases hdetect : lfsTortoiseDetectcycles tail tortoise with
        | none => exact ⟨_, rfl⟩
        | some moved =>
            dsimp only
            rw [outcome_bind]
            apply (outcome_mountTurn hmatches tail).imp
            · rintro result lfs' ⟨fetched, found', hfetched, htook, hresult, hmatches', _⟩
              subst hresult
              dsimp only
              rw [← mountTails_eq]
              exact ih (hsurveyed.pass (by simpa using hnull) hdetect hfetched htook) hmatches'
                (by omega)
            · exact fun _ _ hfails => hfails.1

/-- On a device that answers, mounting gets as far as the survey. -/
theorem Surveyed.runs (hstart : Matches cfg disk [] lfs)
    (hanswered : Answered lfs) {k : ℕ} {tail : Pair} {tortoise : Tortoise}
    (hsurveyed : Surveyed cfg disk k tail tortoise found) :
    ∃ lfs', Matches cfg disk found lfs' ∧ Answered lfs' ∧
      ∀ fuel, mountTails cfg (fuel + k) (0, 1) {} lfs = mountTails cfg fuel tail tortoise lfs' := by
  induction hsurveyed with
  | start => exact ⟨lfs, hstart, hanswered, fun _ => rfl⟩
  | @pass k tail tortoise moved found found' fetched _ hnull hdetect hfetched htook ih =>
      obtain ⟨middle, hmatches, hall, hrun⟩ := ih
      have hturn := outcome_mountTurn hmatches tail
      cases hresult : mountTurn cfg () tail middle with
      | error failure lfs' =>
          exact absurd ⟨fetched, found', hfetched, htook⟩ ((hturn.of_error hresult).2 hall)
      | ok result lfs' =>
          obtain ⟨fetched', found'', hfetched', htook', rfl, hmatches', hanswered'⟩ :=
            hturn.of_ok hresult
          cases hfetched.symm.trans hfetched'
          cases htook.unique htook'
          refine ⟨lfs', hmatches', hanswered' hall, fun fuel => ?_⟩
          have hstep : mountTails cfg (fuel + 1) tail tortoise middle =
              mountTails cfg fuel fetched.dir.tail moved lfs' := by
            rw [mountTails_eq, tailLoop, hnull, hdetect]
            dsimp only
            rw [if_neg (by decide), bind_of_ok hresult]
            exact (congrFun (mountTails_eq cfg fuel fetched.dir.tail moved) lfs').symm
          rw [← hstep, ← hrun (fuel + 1)]
          congr 1
          omega

/-! ## What mounting leaves -/

theorem matches_lfsInit (hdisk : lfs.disk = disk) : Matches cfg disk [] (lfsInit cfg lfs) :=
  ⟨hdisk, rfl, rfl, rfl, rfl⟩

/-- What holds of all superblocks that were taken. -/
structure Accepts (cfg : Config) (found : Superblocks) : Prop where
  entries : ∀ entry ∈ found, lfsPairIsnull entry.1 = false ∧
    entry.2.version / 2 ^ 16 % 2 ^ 16 = diskVersion / 2 ^ 16 ∧
      entry.2.version % 2 ^ 16 ≤ diskVersion % 2 ^ 16 ∧ entry.2.blockSize = cfg.blockSize
  name : (limitsOf cfg found).name ≤ cfg.nameLimit
  file : (limitsOf cfg found).file ≤ cfg.fileLimit
  attr : (limitsOf cfg found).attr ≤ cfg.attrLimit

theorem Accepts.cons {pair : Pair} (haccepts : Accepts cfg found) (hsuits : Suits cfg found sb)
    (hnull : lfsPairIsnull pair = false) : Accepts cfg ((pair, sb) :: found) where
  entries := by
    intro entry hmem
    obtain rfl | hmem := List.mem_cons.mp hmem
    · exact ⟨hnull, hsuits.major, hsuits.minor, hsuits.size⟩
    · exact haccepts.entries entry hmem
  name := by
    change (if sb.nameMax = 0 then _ else sb.nameMax) ≤ _
    split
    · exact haccepts.name
    · exact Nat.le_trans hsuits.name haccepts.name
  file := by
    change (if sb.fileMax = 0 then _ else sb.fileMax) ≤ _
    split
    · exact haccepts.file
    · exact Nat.le_trans hsuits.file haccepts.file
  attr := by
    change (if sb.attrMax = 0 then _ else sb.attrMax) ≤ _
    split
    · exact haccepts.attr
    · exact Nat.le_trans hsuits.attr haccepts.attr

theorem Surveyed.accepts {k : ℕ} {tail : Pair} {tortoise : Tortoise}
    (hsurveyed : Surveyed cfg disk k tail tortoise found) : Accepts cfg found := by
  induction hsurveyed with
  | start => exact ⟨nofun, le_refl _, le_refl _, le_refl _⟩
  | @pass k tail tortoise moved found found' fetched _ hnull _ hfetched htook ih =>
      cases htook with
      | next _ => exact ih
      | deleted _ _ => exact ih
      | entry _ _ _ hsuits _ =>
          apply ih.cons hsuits
          obtain ⟨-, pair, hlocate, hdir⟩ := fetchmatch_ok hfetched
          have hpair : fetched.dir.pair = pair := by
            rw [hdir]
            rfl
          rw [hpair]
          obtain rfl | rfl := locate_eq_or_swap hlocate
          · exact hnull
          · simp only [lfsPairIsnull, Bool.or_eq_false_iff] at hnull ⊢
            exact ⟨hnull.2, hnull.1⟩

/-- A mounted filesystem with a superblock is usable. -/
theorem Matches.usable {pair : Pair} {older : Superblocks}
    (hmatches : Matches cfg disk ((pair, sb) :: older) lfs)
    (hlists : Collected cfg disk ((pair, sb) :: older)) (hcount : sb.blockCount ≠ 0) :
    Usable cfg disk lfs := by
  obtain ⟨k, tail, tortoise, hsurveyed, -⟩ := id hlists
  have haccepts := hsurveyed.accepts
  have hroot : lfs.root = pair := hmatches.root
  have hblocks : lfs.blockCount = sb.blockCount := hmatches.blockCount
  subst hroot
  constructor
  · exact ⟨sb, older, hlists, hblocks, fun entry hmem => (haccepts.entries entry hmem).2⟩
  · exact (haccepts.entries _ List.mem_cons_self).1
  · rw [hblocks]
    exact hcount
  · exact Nat.le_trans (Nat.le_of_eq (congrArg Limits.name hmatches.limits)) haccepts.name
  · exact Nat.le_trans (Nat.le_of_eq (congrArg Limits.file hmatches.limits)) haccepts.file
  · exact Nat.le_trans (Nat.le_of_eq (congrArg Limits.attr hmatches.limits)) haccepts.attr

/-- What is promised about mounting a device. -/
def MountsUsable (cfg : Config) (disk : Block → BlockImage) : Prop :=
  ∀ (seed : ℕ) (lfs : Lfs), lfs.disk = disk →
    Outcome (lfsMount cfg seed) (fun _ lfs' => Usable cfg disk lfs')
      (fun failure _ => ∃ e, failure = .error e) lfs

/-- The list ends without a superblock, or its last one is of no blocks. -/
def Strays (cfg : Config) (disk : Block → BlockImage) : Prop :=
  ∃ found, Collected cfg disk found ∧ (found = [] ∨ countOf cfg found = 0)

theorem mountsUsable_of_not_strays (hworded : Worded disk) (hstrays : ¬Strays cfg disk) :
    MountsUsable cfg disk := by
  intro seed lfs hdisk
  rw [lfsMount, outcome_bind, outcome_modify, outcome_bind]
  apply (outcome_mountTails hworded .start (matches_lfsInit hdisk) (by omega)).imp
  · rintro _ middle ⟨found, hlists, hmatches⟩
    rw [outcome_bind, outcome_get]
    dsimp only
    cases found with
    | nil => exact absurd ⟨[], hlists, Or.inl rfl⟩ hstrays
    | cons entry older =>
        have hcount : entry.2.blockCount ≠ 0 :=
          fun hzero => hstrays ⟨entry :: older, hlists, Or.inr hzero⟩
        have hmiddle : middle.blockCount ≠ 0 := by
          rw [hmatches.blockCount]
          exact hcount
        rw [if_neg hmiddle]
        have husable := hmatches.usable hlists hcount
        exact ⟨husable.lists, husable.root, husable.blockCount, husable.name, husable.file,
          husable.attr⟩
  · exact fun _ _ h => h

theorem not_mountsUsable_of_strays (hworded : Worded disk) (hstrays : Strays cfg disk) :
    ¬MountsUsable cfg disk := by
  intro husable
  obtain ⟨found, ⟨k, tail, tortoise, hsurveyed, hnull⟩, hstray⟩ := hstrays
  let lfs : Lfs := { blankDevice cfg with disk := disk }
  have hstart : Matches cfg disk [] (lfsInit cfg lfs) := matches_lfsInit rfl
  have hanswered : Answered (lfsInit cfg lfs) := nofun
  obtain ⟨middle, hmatches, -, hrun⟩ := hsurveyed.runs hstart hanswered
  obtain ⟨fuel, hfuel⟩ : ∃ fuel, walkFuel (2 ^ 32) = fuel + 1 + k := by
    have hlt := hsurveyed.lt hworded
    exact ⟨walkFuel (2 ^ 32) - k - 1, by omega⟩
  have htails : mountTails cfg (walkFuel (2 ^ 32)) (0, 1) {} (lfsInit cfg lfs) = .ok () middle := by
    rw [hfuel, hrun, mountTails_eq, tailLoop, if_pos hnull]
    rfl
  have hmount := husable 0 lfs rfl
  rw [lfsMount, outcome_bind, outcome_modify, outcome_bind] at hmount
  have hrest := hmount.of_ok htails
  rw [outcome_bind, outcome_get] at hrest
  dsimp only at hrest
  by_cases hcount : middle.blockCount = 0
  · rw [if_pos hcount] at hrest
    obtain ⟨e, he⟩ := hrest
    cases he
  · rw [if_neg hcount] at hrest
    rw [hmatches.blockCount] at hcount
    have hnil : found = [] := hstray.resolve_right hcount
    subst hnil
    have hroot : lfsPairIsnull middle.root = false := hrest.root
    rw [hmatches.root] at hroot
    exact absurd hroot (by decide)

/-- A device that was formatted, and nothing else. -/
def formattedDisk : Block → BlockImage :=
  (tailsDevice defaultConfig [(0, (blockNull, blockNull))]).disk

def formattedSuperblock : Superblock :=
  { version := diskVersion, blockSize := 512, blockCount := 128, nameMax := 255,
    fileMax := 2147483647, attrMax := 1022 }

def formattedRoot : Mdir :=
  { pair := (0, 1), rev := 1, off := 96, count := 1, tail := (blockNull, blockNull) }

theorem worded_formattedDisk : Worded formattedDisk := by
  intro block commit hcommit attr hattr
  by_cases hblock : block = 0
  · subst hblock
    cases List.mem_singleton.mp hcommit
    have hall : ∀ attr ∈ superblockTags defaultConfig ++
        [(tailTag false, Payload.pair (blockNull, blockNull))],
        attr.2.toPair.1 < 2 ^ 32 ∧ attr.2.toPair.2 < 2 ^ 32 := by decide
    exact hall attr hattr
  · have hblank : formattedDisk block = {} := by
      have hbeq : (block == 0) = false := beq_false_of_ne hblock
      have hlookup : [((0 : Block), ((blockNull, blockNull) : Pair))].lookup block = none := by
        simp [List.lookup_cons, hbeq]
      simp only [formattedDisk, tailsDevice, hlookup]
    rw [hblank] at hcommit
    cases hcommit

theorem surveyed_formattedDisk {k : ℕ} {tail : Pair} {tortoise : Tortoise}
    (hsurveyed : Surveyed defaultConfig formattedDisk k tail tortoise found) :
    tail = (0, 1) ∧ found = [] ∨
      lfsPairIsnull tail = true ∧ found = [((0, 1), formattedSuperblock)] := by
  induction hsurveyed with
  | start => exact Or.inl ⟨rfl, rfl⟩
  | @pass k tail tortoise moved found found' fetched _ hnull _ hfetched htook ih =>
      obtain ⟨rfl, rfl⟩ | ⟨hnull', -⟩ := ih
      · have hroot : fetchmatch formattedDisk 128 {} superblockMatch (0, 1) =
            .ok ⟨formattedRoot, 0, .found ⟨tySuperblock, 0, 8⟩⟩ := by decide +kernel
        have hsb : superblockOf formattedDisk formattedRoot = some formattedSuperblock := by
          decide +kernel
        cases hfetched.symm.trans hroot
        refine Or.inr ⟨rfl, ?_⟩
        cases htook with
        | next hresult => cases hresult
        | deleted hresult hdelete =>
            cases hresult
            cases hdelete
        | entry _ _ hsb' _ _ =>
            cases hsb.symm.trans hsb'
            rfl
      · rw [hnull] at hnull'
        cases hnull'

/-- A root without any entry, and no superblock. -/
def bareDisk (block : Block) : BlockImage :=
  if block = 0 then { rev := 1, commits := [{ tags := [], off := 32 }] } else {}

theorem worded_bareDisk : Worded bareDisk := by
  intro block commit hcommit attr hattr
  rw [bareDisk] at hcommit
  split at hcommit
  · cases List.mem_singleton.mp hcommit
    cases hattr
  · cases hcommit

end Littlefs
