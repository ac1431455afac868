import Littlefs.Rewritten

/-!
# Splitting a directory

A directory that outgrows its block gives its last entries to a new pair behind
it.  The new pair is complete before the directory names it, so between the two
writes the old directory still stands.
-/

namespace Littlefs

open Program

/-! ## New pairs -/

/-- A block holds commits or file data, and each commit ends behind the one
before it. -/
structure ImageWf (image : BlockImage) : Prop where
  data : image.commits ≠ [] → image.data = []
  sorted : (image.commits.map Commit.off).Pairwise (· < ·)
  off_lt : ∀ commit ∈ image.commits, 4 < commit.off

instance (image : BlockImage) : Decidable (ImageWf image) :=
  decidable_of_iff ((image.commits ≠ [] → image.data = []) ∧
      (image.commits.map Commit.off).Pairwise (· < ·) ∧ ∀ commit ∈ image.commits, 4 < commit.off)
    ⟨fun h => ⟨h.1, h.2.1, h.2.2⟩, fun h => ⟨h.data, h.sorted, h.off_lt⟩⟩

section

variable {used : List Block} {own : Option Block} {base lfs lfs' : Lfs}

/-- A pair that was just allocated. -/
structure FreshPair (used : List Block) (base lfs : Lfs) (dir : Mdir) : Prop where
  eq : dir = { pair := dir.pair, rev := dir.rev, off := 4, count := 0, erased := false,
               split := false, tail := (blockNull, blockNull) }
  fst : Taken used base lfs dir.pair.1
  snd : Taken used base lfs dir.pair.2
  ne : dir.pair.1 ≠ dir.pair.2
  rev : (lfs.disk dir.pair.1).commits = [] ∨ (lfs.disk dir.pair.1).rev ≤ dir.rev

theorem lfsDirAlloc_fresh (hguarded : Guarded used own lfs)
    (himages : ∀ block < lfs.blockCount, block ∉ used → lfs.Ahead block →
      ImageWf (lfs.disk block)) :
    Outcome lfsDirAlloc
      (fun dir lfs' => FreshPair used lfs lfs' dir ∧ Paused used own lfs lfs' ∧
        lfs'.disk = lfs.disk)
      (fun failure lfs' => Failed used own lfs failure lfs') lfs := by
  rw [lfsDirAlloc, outcome_bind]
  apply ((Paused.start hguarded.inv own).outcome_lfsAlloc hguarded).imp _ fun _ _ h => h.1
  intro block1 lfs1 h1
  obtain ⟨hhanded1, hpaused1, htaken1⟩ := h1
  rw [outcome_bind]
  apply (hpaused1.outcome_lfsAlloc hguarded).imp _ fun _ _ h => h.1
  intro block0 lfs2 h2
  obtain ⟨hhanded2, hpaused2, htaken2⟩ := h2
  have hdisk : lfs2.disk = lfs.disk := by rw [hhanded2.step.eq, hhanded1.step.eq]
  have hne : block0 ≠ block1 := by
    intro heq
    apply hhanded1.spent
    rw [← heq]
    exact hhanded2.ahead
  rw [outcome_bind, outcome_get, outcome_bind]
  apply (outcome_readBlock block0 lfs2).tryError
  · intro image lfs3 hread
    obtain ⟨rfl, -, hreads⟩ := hread
    have hpaused3 := hpaused2.reads hreads
    have hdisk3 : lfs3.disk = lfs.disk := by
      rw [hreads.eq]
      exact hdisk
    have hahead : ∀ block, lfs3.Ahead block → lfs2.Ahead block := by
      intro block h
      rw [hreads.eq] at h
      exact h
    have hword : (lfs2.disk block0).commits = [] ∨
        (lfs2.disk block0).rev ≤ (lfs2.disk block0).firstWord := by
      by_cases hcommits : (lfs2.disk block0).commits = []
      · exact Or.inl hcommits
      · apply Or.inr
        rw [hdisk] at hcommits ⊢
        have hahead := hpaused1.working.ahead block0 hhanded2.ahead
        have hlt : block0 < lfs.blockCount := hpaused1.working.setup.blockCount ▸ hhanded2.lt
        rw [BlockImage.firstWord, if_pos ((himages block0 hlt hhanded2.free hahead).data hcommits)]
    have hcycles : 0 < (lfs2.cfg.blockCycles.toNat + 1) ||| 1 :=
      (Nat.succ_pos _).trans_le Nat.left_le_or
    simp only [outcome_bind, outcome_pure]
    refine ⟨⟨rfl, (htaken2.mono hahead), ?_, hne, ?_⟩, hpaused3, hdisk3⟩
    · exact (htaken1.mono hhanded2.step.ahead).mono hahead
    · rw [hdisk3, ← hdisk]
      apply hword.imp id
      intro hle
      split
      · exact hle.trans (le_lfsAlignup hcycles)
      · exact hle
  · intro e lfs3 hfails
    obtain ⟨hreads, hfails⟩ := hfails
    have hpaused3 := hpaused2.reads hreads
    have hcount : lfs2.blockCount = lfs.blockCount := hpaused2.working.setup.blockCount
    have hio : e = .io := by
      apply hfails.elim
      · intro hcorrupt
        apply absurd _ hcorrupt.2
        rw [OnDevice, hcount, not_and, not_le]
        exact fun _ => htaken2.lt
      · intro hio
        cases hio.1
        rfl
    rw [hio]
    exact hpaused3.failed _
  · exact fun _ _ _ hfails => (hpaused2.reads hfails.1).failed _

end

/-! ## The commit of a directory -/

/-- A directory that may be committed from `base`. -/
structure Committing (used : List Block) (base : Lfs) (dir : Mdir) (attrs : List Mattr) :
    Prop where
  cfg : ConfigWf base.cfg
  word : base.blockCount < 2 ^ 32
  guarded : Guarded used (some dir.pair.2) base
  held : Held used base dir.pair.1
  ne : dir.pair.1 ≠ dir.pair.2
  fst_lt : dir.pair.1 < base.blockCount
  snd_lt : dir.pair.2 < base.blockCount
  rev : (base.disk dir.pair.1).commits = [] ∨ (base.disk dir.pair.1).rev ≤ dir.rev
  images : ∀ block < base.blockCount, ImageWf (base.disk block)
  log : LogWf (mdirLog base.disk dir)
  built : ∀ mattr ∈ attrs, Built base.disk mattr
  stateless : ∀ mattr ∈ attrs, mattr.tag.type ≠ tyMovestate
  sources : ∀ mattr ∈ attrs, ∀ source, mattr.buffer = .mdir source →
    Held used base source.pair.1 ∧ source.pair.1 ≠ dir.pair.2

/-- The exclusive or of the shares of a list of pairs. -/
def shares (lfs : Lfs) (dirs : List Mdir) : Gstate := (dirs.map (share lfs)).foldr Gstate.xor {}

@[simp]
theorem shares_nil (lfs : Lfs) : shares lfs [] = {} := rfl

@[simp]
theorem shares_cons (lfs : Lfs) (dir : Mdir) (dirs : List Mdir) :
    shares lfs (dir :: dirs) = (share lfs dir).xor (shares lfs dirs) := rfl

theorem share_congr {lfs lfs' : Lfs} {dir dir' : Mdir} (hpair : dir'.pair.1 = dir.pair.1)
    (hoff : dir'.off = dir.off) (hdisk : lfs'.disk dir.pair.1 = lfs.disk dir.pair.1) :
    share lfs' dir' = share lfs dir := by
  rw [share, share, readableLog, readableLog, mdirLog, mdirLog, hoff, hpair, hdisk]

theorem shares_congr {lfs lfs' : Lfs} {dirs : List Mdir}
    (hdisk : ∀ dir ∈ dirs, lfs'.disk dir.pair.1 = lfs.disk dir.pair.1) :
    shares lfs' dirs = shares lfs dirs := by
  rw [shares, shares, List.map_congr_left]
  exact fun dir hdir => share_congr rfl rfl (hdisk dir hdir)

theorem nodup_blocksOf_cons {dir : Mdir} {dirs : List Mdir} (hdirs : (blocksOf dirs).Nodup)
    (hne : dir.pair.1 ≠ dir.pair.2) (hfst : dir.pair.1 ∉ blocksOf dirs)
    (hsnd : dir.pair.2 ∉ blocksOf dirs) : (blocksOf (dir :: dirs)).Nodup := by
  have hblocks : blocksOf (dir :: dirs) = dir.pair.1 :: dir.pair.2 :: blocksOf dirs := rfl
  rw [hblocks, List.nodup_cons, List.nodup_cons, List.mem_cons, not_or]
  exact ⟨⟨hne, hfst⟩, hsnd, hdirs⟩

section

variable {used : List Block} {base lfs lfs' : Lfs} {dir : Mdir} {attrs : List Mattr}

theorem Committing.low (hcommitting : Committing used base dir attrs)
    {disk : Block → BlockImage} (hsame : ∀ block, Held used base block → block ≠ dir.pair.2 →
      disk block = base.disk block) {first last : ℕ} (hfirst : first < 2 ^ 16) :
    Low (traverseCompact disk dir attrs first last) := by
  apply low_traverseCompact
  · rw [mdirLog, hsame _ hcommitting.held hcommitting.ne]
    exact hcommitting.log
  · intro mattr hmattr
    have hsources := hcommitting.sources mattr hmattr
    cases hcommitting.built mattr hmattr with
    | plain hplain => exact .plain hplain
    | move htype hsource =>
        obtain ⟨hheld, hne⟩ := hsources _ rfl
        apply Built.move htype
        rw [mdirLog, hsame _ hheld hne]
        exact hsource
    | userattrs htype hlist => exact .userattrs htype hlist
  · exact hfirst

/-- Nothing is pending: the state in memory is the one on disk. -/
structure Flushed (lfs : Lfs) : Prop where
  gdisk : lfs.gdisk.Same lfs.gstate
  gdelta : lfs.gdelta.Same {}

/-- The root and the global state on disk are what they were. -/
structure Retained (base lfs : Lfs) : Prop where
  root : lfs.root = base.root
  gdisk : lfs.gdisk.Same base.gdisk
  gdelta : lfs.gdelta.Same base.gdelta

namespace Retained

theorem refl (base : Lfs) : Retained base base := ⟨rfl, .refl _, .refl _⟩

theorem trans {middle : Lfs} (hleft : Retained base middle) (hright : Retained middle lfs) :
    Retained base lfs :=
  ⟨hright.root.trans hleft.root, hright.gdisk.trans hleft.gdisk, hright.gdelta.trans hleft.gdelta⟩

theorem of_undone {own : Option Block} (hundone : Undone used own base lfs) : Retained base lfs :=
  ⟨hundone.root, by rw [hundone.gdisk]; exact .refl _, by rw [hundone.gdelta]; exact .refl _⟩

theorem of_marks (hmarks : Marks base lfs) : Retained base lfs := by
  rw [hmarks.eq]
  exact ⟨rfl, .refl _, .refl _⟩

theorem settled (hkept : Retained base lfs) (hsettled : Flushed base)
    (hgstate : lfs.gstate = base.gstate) : Flushed lfs where
  gdisk := by
    rw [hgstate]
    exact hkept.gdisk.trans hsettled.gdisk
  gdelta := hkept.gdelta.trans hsettled.gdelta

end Retained

/-- A compaction changes nothing of it when nothing is pending. -/
theorem Compacted.kept {own : Option Block} {source : Mdir} {first last : ℕ}
    {result : Mdir × CommitState} {mid : Lfs}
    (hcompacted : Compacted used own base attrs source first last dir result lfs' mid)
    (hsettled : Flushed base) : Retained base lfs' where
  root := hcompacted.root
  gdisk := by
    apply hcompacted.gdisk.1.elim
    · intro heq
      rw [heq]
      exact .refl _
    · intro heq
      rw [heq]
      exact hsettled.gdisk.symm
  gdelta := by
    rw [hcompacted.gdisk.2]
    exact hsettled.gdelta.symm

theorem Late.mono {failure : Fault} (hlate : Late lfs failure)
    (hsuffix : lfs.script <:+ base.script) : Late base failure :=
  ⟨hlate.1, hsuffix.subset hlate.2⟩

/-- How a step between the splits of a commit fails. -/
def Stopped (used : List Block) (base : Lfs) (dir : Mdir) (lfs : Lfs) (failure : Fault)
    (lfs' : Lfs) : Prop :=
  Late base failure ∨ Spared used (some dir.pair.2) base lfs' ∧ Retained lfs lfs'

/-- The state between the splits of a commit of `dir`: `tails` are complete, and
`current` is the directory with its new tail. -/
structure Split (used : List Block) (base : Lfs) (dir : Mdir) (tails : List Mdir) (current : Mdir)
    (lfs : Lfs) : Prop where
  working : Working used (some dir.pair.2) base lfs
  eq : current = { dir with tail := current.tail, split := current.split }
  reaches : Reaches lfs.disk current.tail tails dir.tail
  taken : ∀ tail ∈ tails, Taken used base lfs tail.pair.1 ∧ Taken used base lfs tail.pair.2
  apart : (blocksOf tails).Nodup
  conserves : ((shares lfs tails).xor (lfs.gdisk.xor lfs.gdelta)).Same
    (base.gdisk.xor base.gdelta)

theorem Split.start (hcommitting : Committing used base dir attrs) :
    Split used base dir [] dir base where
  working := .start hcommitting.guarded.inv _
  eq := rfl
  reaches := .nil (.refl _)
  taken := fun _ h => absurd h List.not_mem_nil
  apart := List.nodup_nil
  conserves := by
    rw [shares_nil, Gstate.zero_xor]
    exact .refl _

namespace Split

variable {tails : List Mdir} {current : Mdir}

theorem guarded (hsplit : Split used base dir tails current lfs)
    (hcommitting : Committing used base dir attrs) : Guarded used (some dir.pair.2) lfs :=
  hcommitting.guarded.inside hsplit.working fun _ h => Or.inl h

/-- The blocks of the tails are handed out. -/
theorem held (hsplit : Split used base dir tails current lfs) {block : Block}
    (hblock : block ∈ blocksOf tails) : Taken used base lfs block := by
  obtain ⟨tail, hmem, heq⟩ := mem_blocksOf.mp hblock
  apply heq.elim
  · intro heq
    rw [heq]
    exact (hsplit.taken tail hmem).1
  · intro heq
    rw [heq]
    exact (hsplit.taken tail hmem).2

/-- The blocks of the tails are out of reach. -/
theorem keeps (hsplit : Split used base dir tails current lfs)
    (hcommitting : Committing used base dir attrs)
    (hsame : ∀ block, Held used lfs block → block ≠ dir.pair.2 → lfs'.disk block = lfs.disk block)
    {tail : Mdir} (hmem : tail ∈ tails) :
    lfs'.disk tail.pair.1 = lfs.disk tail.pair.1 ∧
        lfs'.disk tail.pair.2 = lfs.disk tail.pair.2 := by
  obtain ⟨hfst, hsnd⟩ := hsplit.taken tail hmem
  have hown := hcommitting.guarded.held _ rfl
  have hne : ∀ block, Taken used base lfs block → block ≠ dir.pair.2 := by
    intro block htaken heq
    rw [heq] at htaken
    exact hown.not_taken htaken
  exact ⟨hsame _ hfst.held (hne _ hfst), hsame _ hsnd.held (hne _ hsnd)⟩

/-- A step that failed. -/
theorem keep (hsplit : Split used base dir tails current lfs)
    (hcommitting : Committing used base dir attrs)
    (hworking : Working used (some dir.pair.2) base lfs')
    (hsame : ∀ block, Held used lfs block → block ≠ dir.pair.2 → lfs'.disk block = lfs.disk block)
    (hahead : ∀ block, lfs'.Ahead block → lfs.Ahead block) (hgdisk : lfs'.gdisk = lfs.gdisk)
    (hgdelta : lfs'.gdelta = lfs.gdelta) : Split used base dir tails current lfs' where
  working := hworking
  eq := hsplit.eq
  reaches := by
    apply hsplit.reaches.keeps
    intro tail hmem
    obtain ⟨hfst, hsnd⟩ := hsplit.keeps hcommitting hsame hmem
    refine ⟨?_, Or.inl ?_⟩
    · rw [hfst]
      exact .refl _
    · rw [hsnd]
      exact .refl _
  taken tail hmem := by
    obtain ⟨hfst, hsnd⟩ := hsplit.taken tail hmem
    exact ⟨hfst.mono hahead, hsnd.mono hahead⟩
  apart := hsplit.apart
  conserves := by
    have hshares : shares lfs' tails = shares lfs tails :=
      shares_congr fun tail hmem => (hsplit.keeps hcommitting hsame hmem).1
    rw [hshares, hgdisk, hgdelta]
    exact hsplit.conserves

end Split

theorem lfsPairIsnull_of_lt {pair : Pair} {bound : ℕ} (hbound : bound < 2 ^ 32)
    (hfst : pair.1 < bound) (hsnd : pair.2 < bound) : lfsPairIsnull pair = false := by
  have hnull : blockNull = 2 ^ 32 - 1 := rfl
  have hfst' : pair.1 ≠ blockNull := by
    rw [hnull]
    exact Nat.ne_of_lt (Nat.lt_of_lt_of_le hfst (Nat.le_sub_one_of_lt hbound))
  have hsnd' : pair.2 ≠ blockNull := by
    rw [hnull]
    exact Nat.ne_of_lt (Nat.lt_of_lt_of_le hsnd (Nat.le_sub_one_of_lt hbound))
  simp [lfsPairIsnull, hfst', hsnd']

section

variable {tails : List Mdir} {current : Mdir} {split last : ℕ}

/-- The new tail of a split. -/
theorem Split.cons (hsplit : Split used base dir tails current lfs)
    (hcommitting : Committing used base dir attrs) (hfirst : split < 2 ^ 16) {fresh : Mdir}
    {lfs1 lfs2 mid : Lfs} (hfresh : FreshPair used lfs lfs1 fresh)
    (hpaused : Paused used (some dir.pair.2) lfs lfs1) (hdisk : lfs1.disk = lfs.disk)
    {start : Mdir} (hstart : start =
      { fresh with rev := fresh.rev + 1, split := current.split, tail := current.tail })
    {result : Mdir × CommitState}
    (hcompacted : Compacted used
      (some start.pair.2) lfs1 attrs dir split last start result lfs2 mid)
    (root : Pair) :
    Split used base dir (viewOf lfs2.disk result.1.pair :: tails)
      { current with tail := result.1.pair, split := true } { lfs2 with root := root } := by
  have hheld := hcommitting.guarded.held _ rfl
  have hown : ∀ block, some dir.pair.2 = some block → Held used base block := by
    intro block hblock
    rw [← Option.some.inj hblock]
    exact hheld
  have hpair : start.pair = fresh.pair := by rw [hstart]
  have hrev' : start.rev = fresh.rev + 1 := by rw [hstart]
  have htail' : start.tail = current.tail := by rw [hstart]
  have hoff' : start.off = fresh.off := by rw [hstart]
  -- the allocation, then the compaction up to its last write
  have hworking1 : Working used (some dir.pair.2) base lfs1 :=
    hsplit.working.trans hown (fun _ h => Or.inl h) hpaused.working
  have hsnd : Taken used base lfs1 start.pair.2 := hpair ▸ hfresh.snd.widen hsplit.working
  have hfst : Taken used base lfs1 start.pair.1 := hpair ▸ hfresh.fst.widen hsplit.working
  have hne : start.pair.1 ≠ start.pair.2 := hpair ▸ hfresh.ne
  have hmid : Working used (some dir.pair.2) base mid := by
    apply hworking1.trans hown _ hcompacted.aimed.working
    intro block hblock
    rw [← Option.some.inj hblock]
    exact Or.inr hsnd
  have hnew : Taken used base mid result.1.pair.1 := by
    apply hcompacted.aimed.writable.elim
    · intro hblock
      rw [← Option.some.inj hblock]
      exact hsnd.mono hcompacted.aimed.working.ahead
    · exact fun htaken => htaken.widen hworking1
  obtain ⟨erased, hwrote⟩ := hcompacted.wrote
  have hahead2 : ∀ block, lfs2.Ahead block → mid.Ahead block := by
    intro block h
    rw [hwrote] at h
    exact h
  have hahead : ∀ block, lfs2.Ahead block → lfs.Ahead block := fun block h =>
    hpaused.working.ahead block (hcompacted.aimed.working.ahead block (hahead2 block h))
  have hworking2 : Working used (some dir.pair.2) base { lfs2 with root := root } := by
    have hwritten := hmid.wrote (Or.inr hnew)
      (show Wrote result.1.pair.1 (lfs2.disk result.1.pair.1) mid { mid with
        script := lfs2.script
        disk := Function.update mid.disk result.1.pair.1 (lfs2.disk result.1.pair.1) } from
          ⟨rfl, hcompacted.suffix⟩) (by
        intro hblock
        rw [Option.some.inj hblock] at hheld
        exact absurd hnew hheld.not_taken)
    have hretarget := hwritten.retarget root lfs2.gdisk lfs2.gdelta
    have heq : { lfs2 with root := root } = { mid with
        script := lfs2.script
        disk := Function.update mid.disk result.1.pair.1 (lfs2.disk result.1.pair.1)
        root := root, gdisk := lfs2.gdisk, gdelta := lfs2.gdelta } := by
      obtain ⟨erased', himage⟩ := hcompacted.image
      rw [hwrote]
      simp only [Function.update_self]
    rw [heq]
    exact hretarget
  -- the pair itself
  have hheld1 : Held used lfs1 start.pair.1 := hpair ▸ hfresh.fst.held
  have hlow : Low (traverseCompact mid.disk dir attrs split last) := by
    apply hcommitting.low _ hfirst
    intro block hblock hne
    apply hmid.same hblock
    intro h
    exact hne (Option.some.inj h).symm
  have hrev : (lfs1.disk start.pair.1).commits = [] ∨
      (lfs1.disk start.pair.1).rev < start.rev := by
    rw [hpair, hrev']
    exact hfresh.rev.imp id Nat.lt_succ_of_le
  have hsame : ∀ block, Held used lfs block → block ≠ dir.pair.2 →
      lfs2.disk block = lfs.disk block := by
    intro block hblock _
    rw [← hdisk]
    apply hcompacted.disk (hblock.mono hpaused.working.ahead)
    intro heq
    apply hblock.not_taken
    rw [heq, hpair]
    exact hfresh.snd
  have hnull : lfsPairIsnull result.1.pair = false := by
    apply lfsPairIsnull_of_lt hcommitting.word hnew.lt
    rw [hcompacted.pair_snd]
    exact hfst.lt
  have hview := hcompacted.viewAt hheld1 hne hrev hnull
  have htail : SameTail (viewOf lfs2.disk result.1.pair).tail current.tail := by
    rw [hcompacted.view, hcompacted.log, ← htail']
    exact plainScan_compact _ _ hlow
  -- its blocks are none of those handed out before
  have hother : ∀ block ∈ blocksOf tails, block ≠ start.pair.1 ∧ block ≠ result.1.pair.1 := by
    intro block hblock
    have hblock' : Held used lfs block := (hsplit.held hblock).held
    constructor
    · intro heq
      rw [heq, hpair] at hblock'
      exact hblock'.not_taken hfresh.fst
    · apply hcompacted.ne (hblock'.mono hpaused.working.ahead)
      intro heq
      rw [heq, hpair] at hblock'
      exact hblock'.not_taken hfresh.snd
  refine ⟨hworking2, ?_, ?_, ?_, ?_, ?_⟩
  · rw [hsplit.eq]
  · apply Reaches.cons hview
    apply (hsplit.reaches.keeps _).congr htail
    intro tail hmem
    obtain ⟨hfst', hsnd'⟩ := hsplit.keeps hcommitting hsame hmem
    refine ⟨?_, Or.inl ?_⟩
    · rw [hfst']
      exact .refl _
    · rw [hsnd']
      exact .refl _
  · rw [List.forall_mem_cons]
    refine ⟨⟨hnew.mono hahead2, ?_⟩, fun tail hmem => ?_⟩
    · change Taken used base _ result.1.pair.2
      rw [hcompacted.pair_snd]
      exact hfst.mono fun block h => hcompacted.aimed.working.ahead block (hahead2 block h)
    · obtain ⟨hfst', hsnd'⟩ := hsplit.taken tail hmem
      exact ⟨hfst'.mono hahead, hsnd'.mono hahead⟩
  · apply nodup_blocksOf_cons hsplit.apart
    · intro heq
      rw [viewOf_pair, hcompacted.pair_snd] at heq
      exact hcompacted.ne hheld1 hne heq.symm
    · exact fun h => (hother _ h).2 rfl
    · intro h
      rw [viewOf_pair, hcompacted.pair_snd] at h
      exact (hother _ h).1 rfl
  · have hshare : share { lfs2 with root := root } (viewOf lfs2.disk result.1.pair) =
        share lfs2 result.1 := share_congr rfl (by rw [hcompacted.view]) rfl
    have hshares : shares { lfs2 with root := root } tails = shares lfs tails :=
      shares_congr fun tail hmem => (hsplit.keeps hcommitting hsame hmem).1
    have hconserves := hcompacted.conserves hlow hheld1 hne
    have hempty : share lfs1 start = {} := by
      have hoff : start.off ≤ 4 := by rw [hoff', hfresh.eq]
      rw [share, readableLog, if_pos hoff]
      rfl
    rw [hempty, Gstate.zero_xor, hpaused.gdisk, hpaused.gdelta] at hconserves
    rw [shares_cons, hshare, hshares]
    have hsum : ((share lfs2 result.1).xor (shares lfs tails)).xor (lfs2.gdisk.xor lfs2.gdelta) =
        (shares lfs tails).xor ((share lfs2 result.1).xor (lfs2.gdisk.xor lfs2.gdelta)) := by
      ac_rfl
    change ((((share lfs2 result.1).xor (shares lfs tails))).xor
      (lfs2.gdisk.xor lfs2.gdelta)).Same _
    rw [hsum]
    exact (Gstate.Same.xor (.refl _) hconserves).trans hsplit.conserves

theorem lfsDirSplit_split (hcommitting : Committing used base dir attrs)
    (hsplit : Split used base dir tails current lfs) (hfirst : split < 2 ^ 16) :
    Outcome (lfsDirSplit current attrs dir split last)
      (fun current' lfs' => (∃ tail, Split used base dir (tail :: tails) current' lfs') ∧
        (split ≠ 0 ∨ lfsPairCmp current.pair lfs.root = true → Flushed lfs → Retained lfs lfs'))
      (fun failure lfs' => (failure = .error .noSpace → Split used base dir tails current lfs') ∧
        Stopped used base dir lfs failure lfs') lfs := by
  have hguarded := hsplit.guarded hcommitting
  have himages : ∀ block < lfs.blockCount, block ∉ used → lfs.Ahead block →
      ImageWf (lfs.disk block) := by
    intro block hlt hfree hahead
    have hsame : lfs.disk block = base.disk block := by
      by_contra hne
      apply (hsplit.working.changed block hne).elim
      · intro hown
        apply (hcommitting.guarded.held _ rfl).elim
        · rw [Option.some.inj hown]
          exact hfree
        · rw [Option.some.inj hown]
          exact fun h => h (hsplit.working.ahead block hahead)
      · exact fun htaken => htaken.spent hahead
    rw [hsame]
    exact hcommitting.images block (hsplit.working.setup.blockCount ▸ hlt)
  have hown : ∀ block, some dir.pair.2 = some block → Held used base block := by
    intro block hblock
    rw [← Option.some.inj hblock]
    exact hcommitting.guarded.held _ rfl
  rw [lfsDirSplit, outcome_bind]
  apply (lfsDirAlloc_fresh hguarded himages).imp
  · intro fresh lfs1 h
    obtain ⟨hfresh, hpaused, hdisk⟩ := h
    have hkept1 : Retained lfs lfs1 := .of_undone hpaused.undone
    have hsnd : ∀ block, some fresh.pair.2 = some block →
        Writable used (some dir.pair.2) lfs lfs1 block := by
      intro block hblock
      rw [← Option.some.inj hblock]
      exact Or.inr hfresh.snd
    have hguarded1 : Guarded used (some fresh.pair.2) lfs1 := hguarded.inside hpaused.working hsnd
    have haimed : Aimed used (some fresh.pair.2) lfs1 fresh.pair.2 lfs1 :=
      ⟨.start hguarded1.inv _, Or.inl rfl⟩
    have hcfg : ConfigWf lfs1.cfg := by
      rw [hpaused.working.setup.cfg, hsplit.working.setup.cfg]
      exact hcommitting.cfg
    rw [outcome_bind]
    apply (lfsDirCompact_compacted hguarded1 attrs dir split last hcfg
      { fresh with split := current.split, tail := current.tail } haimed).imp
    · intro result lfs2 h
      obtain ⟨mid, hcompacted⟩ := h
      have hcons := hsplit.cons hcommitting hfirst hfresh hpaused hdisk rfl hcompacted
      have hkept : Flushed lfs → Retained lfs lfs2 := fun hsettled => hkept1.trans
        (hcompacted.kept (hkept1.settled hsettled hpaused.working.setup.gstate))
      dsimp only
      apply outcome_ite
      · intro hzero
        rw [outcome_bind, outcome_modify]
        refine ⟨⟨_, hcons _⟩, fun hroot hsettled => ⟨?_, ?_, ?_⟩⟩
        · have hsame := (hkept hsettled).root
          have hcmp : lfsPairCmp current.pair lfs2.root = true := by
            rw [hsame]
            exact hroot.resolve_left fun h => h hzero
          change (if lfsPairCmp current.pair lfs2.root then lfs2.root else result.1.pair) = lfs.root
          rw [if_pos hcmp]
          exact hsame
        · exact (hkept hsettled).gdisk
        · exact (hkept hsettled).gdelta
      · intro _
        exact ⟨⟨_, hcons lfs2.root⟩, fun _ => hkept⟩
    · intro failure lfs2 hfailed
      have hworking1 := hsplit.working.trans hown (fun _ h => Or.inl h) hpaused.working
      refine ⟨fun hspace => ?_, ?_⟩
      swap
      · apply hfailed.undone.imp
        · exact fun hlate => hlate.mono
            (hpaused.working.setup.suffix.trans hsplit.working.setup.suffix)
        · intro hundone
          refine ⟨hworking1.spared_undone hown ?_ hundone, hkept1.trans (.of_undone hundone)⟩
          intro block hblock
          rw [← Option.some.inj hblock]
          exact Or.inr (hfresh.snd.widen hsplit.working)
      have hpaused2 := hfailed.paused hspace
      have hahead : ∀ block, lfs2.Ahead block → lfs.Ahead block := fun block h =>
        hpaused.working.ahead block (hpaused2.working.ahead block h)
      apply hsplit.keep hcommitting _ _ hahead
      · exact hpaused2.gdisk.trans hpaused.gdisk
      · exact hpaused2.gdelta.trans hpaused.gdelta
      · apply hworking1.trans hown _ hpaused2.working
        intro block hblock
        rw [← Option.some.inj hblock]
        exact Or.inr (hfresh.snd.widen hsplit.working)
      · intro block hblock _
        rw [← hdisk]
        apply hpaused2.working.same (hblock.mono hpaused.working.ahead)
        intro heq
        rw [← Option.some.inj heq] at hblock
        exact hblock.not_taken hfresh.snd
  · intro failure lfs1 hfailed
    refine ⟨fun hspace => ?_, ?_⟩
    swap
    · apply hfailed.undone.imp
      · exact fun hlate => hlate.mono hsplit.working.setup.suffix
      · exact fun hundone => ⟨hsplit.working.spared_undone hown (fun _ h => Or.inl h) hundone,
          .of_undone hundone⟩
    have hpaused := hfailed.paused hspace
    apply hsplit.keep hcommitting _ _ hpaused.working.ahead hpaused.gdisk hpaused.gdelta
    · exact hsplit.working.trans hown (fun _ h => Or.inl h) hpaused.working
    · intro block hblock hne
      apply hpaused.working.same hblock
      exact fun heq => hne (Option.some.inj heq).symm

/-- How a commit of `dir` ends: `news` are the pairs that replace it, up to its
tail. -/
structure Replaced (used : List Block) (base : Lfs) (dir : Mdir) (tail : Pair) (result : Mdir)
    (state : CommitState) (news : List Mdir) (lfs' : Lfs) : Prop where
  inv : AllocInv used lfs'
  ahead : ∀ block, lfs'.Ahead block → base.Ahead block
  frame : ∀ block, Held used base block → block ≠ dir.pair.1 → block ≠ dir.pair.2 →
    lfs'.disk block = base.disk block
  reaches : Reaches lfs'.disk result.pair news tail
  ne_nil : news ≠ []
  apart : (blocksOf news).Nodup
  blocks : ∀ block ∈ blocksOf news,
    block = dir.pair.1 ∨ block = dir.pair.2 ∨ Taken used base lfs' block
  stays : state = .relocated ∨
    state = .ok ∧ (result.pair = dir.pair ∨ result.pair = dir.pair.swap)
  conserves : ((shares lfs' news).xor (lfs'.gdisk.xor lfs'.gdelta)).Same
    ((share base dir).xor (base.gdisk.xor base.gdelta))
  gstate : lfs'.gstate = base.gstate
  gdelta : lfs'.gdelta = {}
  gdisk : state ≠ .relocated → lfs'.gdisk = lfs'.gstate

/-- The last write of a commit. -/
theorem Split.finish (hsplit : Split used base dir tails current lfs)
    (hcommitting : Committing used base dir attrs) {first : ℕ} (hfirst : first < 2 ^ 16)
    {start : Mdir} (hstart : start = { current with rev := current.rev + 1 })
    {result : Mdir × CommitState} {mid : Lfs}
    (hcompacted : Compacted used
      (some start.pair.2) lfs attrs dir first last start result lfs' mid) :
    Replaced used base dir dir.tail result.1 result.2 (viewOf lfs'.disk result.1.pair :: tails)
      lfs' := by
  have hpair : start.pair = dir.pair := by rw [hstart, hsplit.eq]
  have hrev' : start.rev = dir.rev + 1 := by rw [hstart, hsplit.eq]
  have htail' : start.tail = current.tail := by rw [hstart]
  have hoff' : start.off = dir.off := by rw [hstart, hsplit.eq]
  have hheld : Held used lfs start.pair.1 := by
    rw [hpair]
    exact hcommitting.held.mono hsplit.working.ahead
  have hne : start.pair.1 ≠ start.pair.2 := hpair ▸ hcommitting.ne
  have hdisk : lfs.disk dir.pair.1 = base.disk dir.pair.1 := by
    apply hsplit.working.same hcommitting.held
    exact fun h => hcommitting.ne (Option.some.inj h).symm
  have hrev : (lfs.disk start.pair.1).commits = [] ∨ (lfs.disk start.pair.1).rev < start.rev := by
    rw [hpair, hrev', hdisk]
    exact hcommitting.rev.imp id Nat.lt_succ_of_le
  have hlow : Low (traverseCompact mid.disk dir attrs first last) := by
    apply hcommitting.low _ hfirst
    intro block hblock hown
    have hmid := hcompacted.aimed.working.same (hblock.mono hsplit.working.ahead)
      (fun h => hown ((Option.some.inj h).symm.trans (by rw [hpair])))
    rw [hmid]
    exact hsplit.working.same hblock fun h => hown (Option.some.inj h).symm
  have hsame : ∀ block, Held used lfs block → block ≠ dir.pair.2 →
      lfs'.disk block = lfs.disk block := by
    intro block hblock hown
    exact hcompacted.disk hblock (by rwa [hpair])
  have hlt : result.1.pair.1 < base.blockCount := by
    apply hcompacted.aimed.writable.elim
    · intro h
      rw [← Option.some.inj h, hpair]
      exact hcommitting.snd_lt
    · intro htaken
      exact hsplit.working.setup.blockCount ▸ htaken.lt
  have hnull : lfsPairIsnull result.1.pair = false := by
    apply lfsPairIsnull_of_lt hcommitting.word hlt
    rw [hcompacted.pair_snd, hpair]
    exact hcommitting.fst_lt
  have htail : SameTail (viewOf lfs'.disk result.1.pair).tail current.tail := by
    rw [hcompacted.view, hcompacted.log, ← htail']
    exact plainScan_compact _ _ hlow
  have hown : ∀ block, Held used lfs block → block ≠ dir.pair.2 → block ≠ result.1.pair.1 := by
    intro block hblock hown
    exact hcompacted.ne hblock (by rwa [hpair])
  have hother : ∀ block ∈ blocksOf tails, block ≠ dir.pair.1 ∧ block ≠ dir.pair.2 := by
    intro block hblock
    have htaken := hsplit.held hblock
    constructor
    · intro heq
      rw [heq] at htaken
      exact hcommitting.held.not_taken htaken
    · intro heq
      rw [heq] at htaken
      exact (hcommitting.guarded.held _ rfl).not_taken htaken
  obtain ⟨erased, hwrote⟩ := hcompacted.wrote
  have hmid := hcompacted.aimed.working.setup.gstate
  have hahead' : ∀ block, lfs'.Ahead block → lfs.Ahead block := by
    intro block h
    apply hcompacted.aimed.working.ahead
    rw [hwrote] at h
    exact h
  refine ⟨?_, ?_, ?_, ?_, List.cons_ne_nil _ _, ?_, ?_, ?_, ?_, ?_, ?_, ?_⟩
  · obtain ⟨hvalid, hroom, hclear⟩ := hcompacted.aimed.working.inv
    rw [hwrote]
    exact ⟨hvalid, hroom, hclear⟩
  · exact fun block h => hsplit.working.ahead block (hahead' block h)
  · intro block hblock _ hown
    rw [hsame block (hblock.mono hsplit.working.ahead) hown]
    exact hsplit.working.same hblock fun h => hown (Option.some.inj h).symm
  · apply Reaches.cons (hcompacted.viewAt hheld hne hrev hnull)
    apply (hsplit.reaches.keeps _).congr htail
    intro tail hmem
    obtain ⟨hfst, hsnd⟩ := hsplit.keeps hcommitting hsame hmem
    refine ⟨?_, Or.inl ?_⟩
    · rw [hfst]
      exact .refl _
    · rw [hsnd]
      exact .refl _
  · apply nodup_blocksOf_cons hsplit.apart
    · intro heq
      rw [viewOf_pair, hcompacted.pair_snd] at heq
      exact hcompacted.ne hheld hne heq.symm
    · exact fun h => hown _ (hsplit.held h).held (hother _ h).2 rfl
    · intro h
      rw [viewOf_pair, hcompacted.pair_snd, hpair] at h
      exact (hother _ h).1 rfl
  · intro block hblock
    change block ∈ (viewOf lfs'.disk result.1.pair).blocks ++ blocksOf tails at hblock
    apply (List.mem_append.mp hblock).elim
    · intro hnew
      change block ∈ [result.1.pair.1, result.1.pair.2] at hnew
      rw [hcompacted.pair_snd, hpair, List.mem_cons, List.mem_singleton] at hnew
      apply hnew.elim _ Or.inl
      intro heq
      rw [heq]
      apply hcompacted.aimed.writable.elim
      · intro hblock
        rw [hpair] at hblock
        exact Or.inr (Or.inl (Option.some.inj hblock).symm)
      · intro htaken
        apply Or.inr (Or.inr _)
        apply (htaken.widen hsplit.working).mono
        intro block h
        rw [hwrote] at h
        exact h
    · exact fun htail => Or.inr (Or.inr ((hsplit.held htail).mono hahead'))
  · apply hcompacted.state.imp id
    intro hstate
    refine ⟨hstate.1, Or.inr ?_⟩
    have hpair' : result.1.pair = (result.1.pair.1, result.1.pair.2) := rfl
    rw [hpair', hstate.2, hcompacted.pair_snd, hpair]
    rfl
  · have hshare : share lfs' (viewOf lfs'.disk result.1.pair) = share lfs' result.1 :=
      share_congr rfl (by rw [hcompacted.view]) rfl
    have hshares : shares lfs' tails = shares lfs tails :=
      shares_congr fun tail hmem => (hsplit.keeps hcommitting hsame hmem).1
    have hbefore : share lfs start = share base dir := share_congr (by rw [hpair]) hoff' hdisk
    have hconserves := hcompacted.conserves hlow hheld hne
    rw [hbefore] at hconserves
    rw [shares_cons, hshare, hshares]
    unfold Gstate.Same at *
    have htails := hsplit.conserves
    unfold Gstate.Same at htails
    simp only [Gstate.dropSize_xor] at hconserves htails ⊢
    calc ((share lfs' result.1).dropSize.xor (shares lfs tails).dropSize).xor
          (lfs'.gdisk.dropSize.xor lfs'.gdelta.dropSize)
        = (shares lfs tails).dropSize.xor ((share lfs' result.1).dropSize.xor
            (lfs'.gdisk.dropSize.xor lfs'.gdelta.dropSize)) := by ac_rfl
      _ = (shares lfs tails).dropSize.xor ((share base dir).dropSize.xor
            (lfs.gdisk.dropSize.xor lfs.gdelta.dropSize)) := by rw [hconserves]
      _ = (share base dir).dropSize.xor ((shares lfs tails).dropSize.xor
            (lfs.gdisk.dropSize.xor lfs.gdelta.dropSize)) := by ac_rfl
      _ = (share base dir).dropSize.xor (base.gdisk.dropSize.xor base.gdelta.dropSize) := by
          rw [htails]
  · rw [hwrote]
    exact hmid.trans hsplit.working.setup.gstate
  · rw [hwrote]
  · intro hstate
    rw [hwrote]
    exact if_neg hstate

theorem lfsDirCompact_replaced (hcommitting : Committing used base dir attrs)
    (hsplit : Split used base dir tails current lfs) {first : ℕ} (hfirst : first < 2 ^ 16) :
    Outcome (lfsDirCompact current attrs dir first last)
      (fun result lfs' => ∃ news, Replaced used base dir dir.tail result.1 result.2 news lfs')
      (fun failure lfs' => Stopped used base dir lfs failure lfs') lfs := by
  have hguarded := hsplit.guarded hcommitting
  have hown : ∀ block, some dir.pair.2 = some block → Held used base block := by
    intro block hblock
    rw [← Option.some.inj hblock]
    exact hcommitting.guarded.held _ rfl
  have hcfg : ConfigWf lfs.cfg := by
    rw [hsplit.working.setup.cfg]
    exact hcommitting.cfg
  have hpair : current.pair.2 = dir.pair.2 := by rw [hsplit.eq]
  rw [← hpair] at hguarded
  have haimed : Aimed used (some current.pair.2) lfs current.pair.2 lfs :=
    ⟨.start hguarded.inv _, Or.inl rfl⟩
  apply (lfsDirCompact_compacted hguarded attrs dir first last hcfg current haimed).imp
  · intro result lfs' h
    obtain ⟨mid, hcompacted⟩ := h
    exact ⟨_, hsplit.finish hcommitting hfirst rfl hcompacted⟩
  · intro failure lfs' hfailed
    apply hfailed.undone.imp
    · exact fun hlate => hlate.mono hsplit.working.setup.suffix
    · intro hundone
      refine ⟨hsplit.working.spared_undone hown ?_ hundone, .of_undone hundone⟩
      intro block hblock
      rw [hpair] at hblock
      exact Or.inl hblock

theorem findSplit_le {disk : Block → BlockImage} {cfg : Config} {source : Mdir} (fuel : ℕ)
    (hle : split ≤ last) : findSplit disk cfg attrs source last fuel split ≤ last := by
  induction fuel generalizing split with
  | zero => exact hle
  | succ fuel ih =>
      rw [findSplit]
      split
      · dsimp only
        split
        · exact hle
        · apply ih
          omega
      · exact hle

/-- Reading and counting do not disturb a commit. -/
theorem Split.marks (hsplit : Split used base dir tails current lfs)
    (hcommitting : Committing used base dir attrs) (hmarks : Marks lfs lfs') :
    Split used base dir tails current lfs' := by
  have hahead : ∀ block, lfs'.Ahead block → lfs.Ahead block := (AllocStep.of_marks hmarks).ahead
  apply hsplit.keep hcommitting (hsplit.working.marks hmarks) _ hahead
  · rw [hmarks.eq]
  · rw [hmarks.eq]
  · intro block _ _
    rw [hmarks.eq]

theorem le_findSplit {disk : Block → BlockImage} {cfg : Config} {source : Mdir} (fuel : ℕ) :
    split ≤ findSplit disk cfg attrs source last fuel split := by
  induction fuel generalizing split with
  | zero => exact le_refl _
  | succ fuel ih =>
      rw [findSplit]
      split
      · dsimp only
        split
        · exact le_refl _
        · exact (Nat.le_add_right _ _).trans ih
      · exact le_refl _

/-- The loop finds nothing to split off. -/
def NoSplit (base : Lfs) (dir : Mdir) (attrs : List Mattr) (first last : ℕ) : Prop :=
  findSplit base.disk base.cfg attrs dir last (last - first) first = first ∨
    last ≤ findSplit base.disk base.cfg attrs dir last (last - first) first

/-- The superblock is due to be expanded. -/
def Expands (cfg : Config) (dir : Mdir) : Prop :=
  lfsDirNeedsrelocation cfg dir = true ∧ lfsPairCmp dir.pair (0, 1) = false

/-- A compaction may fail: no split of it hides what is pending. -/
structure SafeToFail (base : Lfs) (dir : Mdir) (attrs : List Mattr) (first last : ℕ) : Prop where
  late : Event.failedAfter ∉ base.script
  splits : Flushed base ∨ NoSplit base dir attrs first last ∧ ¬Expands base.cfg dir
  root : Expands base.cfg dir → lfsPairCmp dir.pair base.root = true

/-- The turn of `splitLoop` once the log was read. -/
def splitTurn (attrs : List Mattr) (source : Mdir) (first fuel : ℕ) (dir : Mdir)
    (split last : ℕ) : FsM (Mdir × ℕ) := do
  let lfs ← get
  let split := findSplit lfs.disk lfs.cfg attrs source last (last - split) split
  if split = first ∨ last ≤ split then
    return (dir, last)
  match ← tryError (lfsDirSplit dir attrs source split last) with
  | .error .noSpace => return (dir, last)
  | .error e => failWith e
  | .ok dir => splitLoop attrs source first fuel dir split split

theorem splitLoop_noSplit {first : ℕ} (hno : NoSplit base dir attrs first last) (fuel : ℕ) :
    Outcome (splitLoop attrs dir first (fuel + 1) dir first last)
      (fun _ lfs' => Reads base lfs') (fun _ lfs' => Reads base lfs') base := by
  have hturn : ∀ lfs1, Reads base lfs1 →
      Outcome (splitTurn attrs dir first fuel dir first last)
        (fun _ lfs' => Reads base lfs') (fun _ lfs' => Reads base lfs') lfs1 := by
    intro lfs1 hreads
    have hdisk : lfs1.disk = base.disk := by rw [hreads.eq]
    have hcfg : lfs1.cfg = base.cfg := by rw [hreads.eq]
    rw [splitTurn, outcome_bind, outcome_get, hdisk, hcfg]
    apply outcome_ite
    · exact fun _ => hreads
    · exact fun h => absurd hno h
  rw [splitLoop]
  apply outcome_ite
  · intro _
    rw [outcome_bind]
    apply (outcome_readLog dir base).imp
    · exact fun _ lfs1 hread => hturn lfs1 hread.2
    · exact fun _ _ hfails => hfails.1
  · exact fun _ => hturn base (.refl base)

theorem splitLoop_split (hcommitting : Committing used base dir attrs) {first : ℕ} (fuel : ℕ)
    (hsplit : Split used base dir tails current lfs) (hkept : Flushed base → Retained base lfs)
    (hfirst : first ≤ split) (hle : split ≤ last) (hlast : last < 2 ^ 16) :
    Outcome (splitLoop attrs dir first fuel current split last)
      (fun result lfs' => (∃ tails, Split used base dir tails result.1 lfs') ∧
        (Flushed base → Retained base lfs'))
      (fun failure lfs' => Late base failure ∨ Spared used (some dir.pair.2) base lfs' ∧
        (Flushed base → Retained base lfs')) lfs := by
  induction fuel generalizing lfs tails current split last with
  | zero => exact ⟨⟨tails, hsplit⟩, hkept⟩
  | succ fuel ih =>
      -- what follows once the log was read
      have hturn : ∀ lfs1, Split used base dir tails current lfs1 →
          (Flushed base → Retained base lfs1) →
          Outcome (splitTurn attrs dir first fuel current split last)
            (fun result lfs' => (∃ tails, Split used base dir tails result.1 lfs') ∧
              (Flushed base → Retained base lfs'))
            (fun failure lfs' => Late base failure ∨ Spared used (some dir.pair.2) base lfs' ∧
              (Flushed base → Retained base lfs')) lfs1 := by
        intro lfs1 hsplit1 hkept1
        rw [splitTurn, outcome_bind, outcome_get]
        have hfound : findSplit lfs1.disk lfs1.cfg attrs dir last (last - split) split ≤ last :=
          findSplit_le _ hle
        have hfound' : split ≤ findSplit lfs1.disk lfs1.cfg attrs dir last (last - split) split :=
          le_findSplit _
        generalize findSplit lfs1.disk lfs1.cfg attrs dir last (last - split) split =
          found at hfound hfound'
        dsimp only
        apply outcome_ite
        · exact fun _ => ⟨⟨tails, hsplit1⟩, hkept1⟩
        · intro hgoes
          have hzero : found ≠ 0 := by
            intro hzero
            apply hgoes
            left
            omega
          have hstopped : ∀ failure lfs2, Stopped used base dir lfs1 failure lfs2 →
              Late base failure ∨ Spared used (some dir.pair.2) base lfs2 ∧
                (Flushed base → Retained base lfs2) := by
            intro failure lfs2 hstopped
            apply hstopped.imp id
            exact fun h => ⟨h.1, fun hsettled => (hkept1 hsettled).trans h.2⟩
          rw [outcome_bind]
          apply (lfsDirSplit_split hcommitting hsplit1 (hfound.trans_lt hlast)).tryError
          · intro current' lfs2 h
            obtain ⟨⟨tail, hsplit2⟩, hkept2⟩ := h
            apply ih hsplit2 _ (hfirst.trans hfound') (le_refl _) (hfound.trans_lt hlast)
            intro hsettled
            apply (hkept1 hsettled).trans
            apply hkept2 (Or.inl hzero)
            exact (hkept1 hsettled).settled hsettled hsplit1.working.setup.gstate
          · intro e lfs2 hfails
            cases e
            case noSpace =>
              refine ⟨⟨tails, hfails.1 rfl⟩, fun hsettled => ?_⟩
              apply (hstopped _ lfs2 hfails.2).elim
              · exact fun hlate => by cases hlate.1
              · exact fun h => h.2 hsettled
            all_goals exact hstopped _ lfs2 hfails.2
          · exact fun _ lfs2 _ hfails => hstopped _ lfs2 hfails.2
      rw [splitLoop]
      apply outcome_ite
      · intro _
        rw [outcome_bind]
        apply (outcome_readLog dir lfs).imp
        · intro _ lfs1 hread
          apply hturn lfs1 (hsplit.marks hcommitting (.of_reads hread.2))
          exact fun hsettled => (hkept hsettled).trans (.of_marks (.of_reads hread.2))
        · intro failure lfs1 hfails
          have hmarks : Marks lfs lfs1 := .of_reads hfails.1
          exact Or.inr ⟨(hsplit.marks hcommitting hmarks).working.spared,
            fun hsettled => (hkept hsettled).trans (.of_marks hmarks)⟩
      · exact fun _ => hturn lfs hsplit hkept

/-- However a compaction of `dir` splits and moves, the pairs that replace it
take over its share; if it fails, the list is what it was. -/
theorem lfsDirSplittingcompact_replaced (hcommitting : Committing used base dir attrs) {first : ℕ}
    (hle : first ≤ last) (hlast : last < 2 ^ 16) :
    Outcome (lfsDirSplittingcompact dir attrs first last)
      (fun result lfs' => ∃ news, Replaced used base dir dir.tail result.1 result.2 news lfs')
      (fun failure lfs' => Late base failure ∨ Spared used (some dir.pair.2) base lfs' ∧
        (SafeToFail base dir attrs first last → Retained base lfs')) base := by
  have hfirst := hle.trans_lt hlast
  rw [lfsDirSplittingcompact, outcome_bind]
  have hstart : Outcome (splitLoop attrs dir first 2 dir first last)
      (fun result lfs' => (∃ tails, Split used base dir tails result.1 lfs') ∧
        (Flushed base ∨ NoSplit base dir attrs first last → Retained base lfs'))
      (fun failure lfs' => Late base failure ∨ Spared used (some dir.pair.2) base lfs' ∧
        (Flushed base ∨ NoSplit base dir attrs first last → Retained base lfs')) base := by
    have hloop := splitLoop_split hcommitting 2 (.start hcommitting) (fun _ => .refl base)
        (le_refl _)
      hle hlast
    by_cases hno : NoSplit base dir attrs first last
    · apply (hloop.and (splitLoop_noSplit hno 1)).imp
      · exact fun _ _ h => ⟨h.1.1, fun _ => .of_marks (.of_reads h.2)⟩
      · exact fun _ _ h => h.1.imp id fun hspared => ⟨hspared.1, fun _ => .of_marks (.of_reads h.2)⟩
    · apply hloop.imp
      · exact fun _ _ h => ⟨h.1, fun hsafe => h.2 (hsafe.resolve_right hno)⟩
      · exact fun _ _ h => h.imp id fun hspared =>
          ⟨hspared.1, fun hsafe => hspared.2 (hsafe.resolve_right hno)⟩
  apply hstart.imp
  swap
  · intro failure lfs1 hfails
    apply hfails.imp id
    exact fun h => ⟨h.1, fun hsafe => h.2 (hsafe.splits.imp id And.left)⟩
  intro result lfs1 h
  obtain ⟨current, last'⟩ := result
  obtain ⟨⟨tails, hsplit⟩, hkept1⟩ := h
  dsimp only at hsplit ⊢
  have hpair : current.pair = dir.pair := by rw [hsplit.eq]
  have hcfg : lfs1.cfg = base.cfg := hsplit.working.setup.cfg
  have hneeds : lfsDirNeedsrelocation lfs1.cfg current = lfsDirNeedsrelocation base.cfg dir := by
    rw [hcfg, hsplit.eq]
    rfl
  -- a step that fails from here on
  have hstopped : ∀ lfs2 failure lfs3,
      (Flushed base ∨ NoSplit base dir attrs first last → Retained base lfs2) →
      Stopped used base dir lfs2 failure lfs3 →
      Late base failure ∨ Spared used (some dir.pair.2) base lfs3 ∧
        (SafeToFail base dir attrs first last → Retained base lfs3) := by
    intro lfs2 failure lfs3 hkept2 hstopped
    apply hstopped.imp id
    exact fun h => ⟨h.1, fun hsafe => (hkept2 (hsafe.splits.imp id And.left)).trans h.2⟩
  have hcompact : ∀ lfs2 current' tails' last'',
      (Flushed base ∨ NoSplit base dir attrs first last → Retained base lfs2) →
      Split used base dir tails' current' lfs2 →
      Outcome (lfsDirCompact current' attrs dir first last'')
        (fun result lfs' => ∃ news, Replaced used base dir dir.tail result.1 result.2 news lfs')
        (fun failure lfs' => Late base failure ∨ Spared used (some dir.pair.2) base lfs' ∧
          (SafeToFail base dir attrs first last → Retained base lfs')) lfs2 := by
    intro lfs2 current' tails' last'' hkept2 hsplit2
    apply (lfsDirCompact_replaced hcommitting hsplit2 hfirst).imp fun _ _ h => h
    exact fun failure lfs3 h => hstopped lfs2 failure lfs3 hkept2 h
  rw [outcome_bind, outcome_get, hneeds, hpair]
  apply outcome_ite
  · intro hexpands
    have hexpands : Expands base.cfg dir := by simpa [Expands] using hexpands
    rw [outcome_bind]
    apply (scans_lfsFsSize lfs1).imp
    swap
    · intro failure lfs2 hfails
      right
      exact ⟨(hsplit.marks hcommitting hfails.1).working.spared, fun hsafe =>
        (hkept1 (hsafe.splits.imp id And.left)).trans (.of_marks hfails.1)⟩
    intro size lfs2 hmarks
    have hsplit2 := hsplit.marks hcommitting hmarks
    have hkept2 : Flushed base ∨ NoSplit base dir attrs first last → Retained base lfs2 :=
      fun hsafe => (hkept1 hsafe).trans (.of_marks hmarks)
    apply outcome_ite
    · intro _
      rw [outcome_bind]
      apply (lfsDirSplit_split hcommitting hsplit2 hfirst).tryError
      · intro current' lfs3 h
        obtain ⟨⟨tail, hsplit3⟩, hkept3⟩ := h
        apply (lfsDirCompact_replaced hcommitting hsplit3 hfirst).imp fun _ _ h => h
        intro failure lfs4 hfails
        apply hfails.imp id
        refine fun h => ⟨h.1, fun hsafe => ?_⟩
        have hsettled : Flushed base := hsafe.splits.resolve_right fun h => h.2 hexpands
        have hkept2' := hkept2 (Or.inl hsettled)
        apply (hkept2'.trans (hkept3 (Or.inr _) _)).trans h.2
        · rw [hpair, hkept2'.root]
          exact hsafe.root hexpands
        · exact hkept2'.settled hsettled hsplit2.working.setup.gstate
      · intro e lfs3 hfails
        cases e
        case noSpace =>
          apply hcompact lfs3 _ _ _ _ (hfails.1 rfl)
          intro hsafe
          apply (hkept2 hsafe).trans
          apply hfails.2.elim
          · exact fun hlate => by cases hlate.1
          · exact fun h => h.2
        all_goals exact hstopped lfs2 _ lfs3 hkept2 hfails.2
      · exact fun _ lfs3 _ hfails => hstopped lfs2 _ lfs3 hkept2 hfails.2
    · exact fun _ => hcompact lfs2 _ _ _ hkept2 hsplit2
  · exact fun _ => hcompact lfs1 _ _ _ hkept1 hsplit

end

end

end Littlefs
