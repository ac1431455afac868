import Littlefs.Allocation
import Littlefs.Commit

/-!
# In the middle of a commit

Between its first and its last write a commit changes the block it is about to
replace, as long as that one has no commits, and blocks it has allocated.  The
list of metadata pairs is the one before the commit all the while, so every
scan on the way marks the same blocks.
-/

namespace Littlefs

open Program

/-! ## Single writes -/

/-- One access that leaves `image` on `block`. -/
structure Wrote (block : Block) (image : BlockImage) (lfs lfs' : Lfs) : Prop where
  eq : lfs' = { lfs with script := lfs'.script, disk := Function.update lfs.disk block image }
  suffix : lfs'.script <:+ lfs.script

theorem outcome_lfsBdErase (block : Block) (lfs : Lfs) :
    Outcome (lfsBdErase block) (fun _ lfs' => Wrote block {} lfs lfs')
      (fun _ lfs' => Reads lfs lfs' ∨ Wrote block {} lfs lfs') lfs := by
  rw [lfsBdErase, outcome_bind, outcome_get, outcome_bind, outcome_nextEvent]
  have hsuffix := List.tail_suffix lfs.script
  cases lfs.script.headD .ok with
  | ok =>
      apply outcome_ite
      · exact fun _ => Or.inl (reads_tail lfs)
      · exact fun _ => ⟨rfl, hsuffix⟩
  | failed => exact Or.inl (reads_tail lfs)
  | failedAfter => exact Or.inr ⟨rfl, hsuffix⟩

/-- A program access that fails leaves `torn`, unless the device reports the
failure after it has taken effect. -/
theorem outcome_devProg (block : Block) (torn image : BlockImage) (lfs : Lfs) :
    Outcome (devProg block torn image) (fun _ lfs' => Wrote block image lfs lfs')
      (fun failure lfs' => Wrote block torn lfs lfs' ∨
        failure = .error .io ∧ Event.failedAfter ∈ lfs.script ∧ Wrote block image lfs lfs')
            lfs := by
  rw [devProg, outcome_bind, outcome_get, outcome_bind, outcome_nextEvent]
  have hsuffix := List.tail_suffix lfs.script
  cases hevent : lfs.script.headD .ok with
  | ok =>
      apply outcome_ite
      · exact fun _ => Or.inl ⟨rfl, hsuffix⟩
      · exact fun _ => ⟨rfl, hsuffix⟩
  | failed => exact Or.inl ⟨rfl, hsuffix⟩
  | failedAfter =>
      have hmem : Event.failedAfter ∈ lfs.script := by
        cases hscript : lfs.script with
        | nil =>
            rw [hscript] at hevent
            cases hevent
        | cons event script =>
            rw [hscript] at hevent
            cases hevent
            exact List.mem_cons_self
      exact Or.inr ⟨rfl, hmem, rfl, hsuffix⟩

/-! ## The states of a commit -/

/-- What no commit changes: the configuration, the open handles and the global
state in memory. -/
structure SameSetup (base lfs : Lfs) : Prop where
  eq : lfs = { base with disk := lfs.disk, script := lfs.script, lookahead := lfs.lookahead,
                         root := lfs.root, gdisk := lfs.gdisk, gdelta := lfs.gdelta }
  suffix : lfs.script <:+ base.script

namespace SameSetup

variable {base middle lfs : Lfs}

theorem refl (base : Lfs) : SameSetup base base := ⟨rfl, List.suffix_rfl⟩

theorem trans (hleft : SameSetup base middle) (hright : SameSetup middle lfs) :
    SameSetup base lfs where
  eq := by rw [hright.eq, hleft.eq]
  suffix := hright.suffix.trans hleft.suffix

theorem blockCount (hsetup : SameSetup base lfs) : lfs.blockCount = base.blockCount := by
  rw [hsetup.eq]

theorem cfg (hsetup : SameSetup base lfs) : lfs.cfg = base.cfg := by rw [hsetup.eq]

theorem mlist (hsetup : SameSetup base lfs) : lfs.mlist = base.mlist := by rw [hsetup.eq]

theorem gstate (hsetup : SameSetup base lfs) : lfs.gstate = base.gstate := by rw [hsetup.eq]

theorem of_reads (hreads : Reads base lfs) : SameSetup base lfs :=
  ⟨by rw [hreads.eq], hreads.suffix⟩

theorem of_alloc (hstep : AllocStep base lfs) : SameSetup base lfs :=
  ⟨by rw [hstep.eq], hstep.suffix⟩

theorem of_wrote {block : Block} {image : BlockImage} (hwrote : Wrote block image base lfs) :
    SameSetup base lfs :=
  ⟨by rw [hwrote.eq], hwrote.suffix⟩

end SameSetup

/-- `block` was handed out between `base` and `lfs`. -/
structure Taken (used : List Block) (base lfs : Lfs) (block : Block) : Prop where
  free : block ∉ used
  ahead : base.Ahead block
  spent : ¬lfs.Ahead block
  lt : block < base.blockCount

/-- The states of a commit that started in `base`, on a filesystem whose list has
the blocks `used`.  `own` is the block of the list that the commit may write. -/
structure Working (used : List Block) (own : Option Block) (base lfs : Lfs) : Prop where
  setup : SameSetup base lfs
  inv : AllocInv used lfs
  ahead : ∀ block, lfs.Ahead block → base.Ahead block
  changed : ∀ block, lfs.disk block ≠ base.disk block →
    own = some block ∨ Taken used base lfs block
  torn : ∀ block, own = some block →
    lfs.disk block = base.disk block ∨ (lfs.disk block).commits = []

variable {used : List Block} {own : Option Block} {base lfs lfs' : Lfs}

/-- The blocks a commit may write to. -/
def Writable (used : List Block) (own : Option Block) (base lfs : Lfs) (block : Block) : Prop :=
  own = some block ∨ Taken used base lfs block

theorem Working.start (hinv : AllocInv used base) (own : Option Block) :
    Working used own base base :=
  ⟨SameSetup.refl base, hinv, fun _ h => h, fun _ h => absurd rfl h, fun _ _ => Or.inl rfl⟩

theorem Taken.mono {block : Block} (htaken : Taken used base lfs block)
    (hahead : ∀ block, lfs'.Ahead block → lfs.Ahead block) : Taken used base lfs' block :=
  ⟨htaken.free, htaken.ahead, fun h => htaken.spent (hahead block h), htaken.lt⟩

theorem Writable.mono {block : Block} (hwritable : Writable used own base lfs block)
    (hahead : ∀ block, lfs'.Ahead block → lfs.Ahead block) :
    Writable used own base lfs' block :=
  hwritable.imp id fun htaken => htaken.mono hahead

theorem Working.alloc (hworking : Working used own base lfs) (hstep : AllocStep lfs lfs')
    (hinv : AllocInv used lfs') : Working used own base lfs' where
  setup := hworking.setup.trans (.of_alloc hstep)
  inv := hinv
  ahead block h := hworking.ahead block (hstep.ahead block h)
  changed block hne := by
    rw [hstep.disk] at hne
    exact (hworking.changed block hne).imp id fun htaken => htaken.mono hstep.ahead
  torn block hown := by
    rw [hstep.disk]
    exact hworking.torn block hown

theorem Working.reads (hworking : Working used own base lfs) (hreads : Reads lfs lfs') :
    Working used own base lfs' := by
  refine hworking.alloc (.of_marks (.of_reads hreads)) ?_
  obtain ⟨hvalid, hroom, hclear⟩ := hworking.inv
  rw [hreads.eq]
  exact ⟨hvalid, hroom, hclear⟩

theorem Working.marks (hworking : Working used own base lfs) (hmarks : Marks lfs lfs') :
    Working used own base lfs' := by
  refine hworking.alloc (.of_marks hmarks) ⟨hmarks.valid hworking.inv.valid, ?_, ?_⟩
  · rw [hmarks.eq]
    exact hworking.inv.room
  intro i hnext hsize hbit
  have hmono := hmarks.mono
  rw [hmarks.eq] at hnext hsize hbit ⊢
  refine hworking.inv.clear i hnext hsize ?_
  cases hbefore : lfs.lookahead.buffer i with
  | false => rfl
  | true => exact absurd (hmono i hbefore) (by simpa using hbit)

/-- The root and the global state on disk are free to change. -/
theorem Working.retarget (hworking : Working used own base lfs) (root : Pair)
    (gdisk gdelta : Gstate) :
    Working used own base { lfs with root := root, gdisk := gdisk, gdelta := gdelta } where
  setup := ⟨by rw [hworking.setup.eq], hworking.setup.suffix⟩
  inv := ⟨hworking.inv.valid, hworking.inv.room, hworking.inv.clear⟩
  ahead := hworking.ahead
  changed block hne := (hworking.changed block hne).imp id fun htaken => htaken.mono fun _ h => h
  torn := hworking.torn

/-- Blocks that no allocation hands out: they are in use, or handed out already. -/
def Held (used : List Block) (lfs : Lfs) (block : Block) : Prop := block ∈ used ∨ ¬lfs.Ahead block

theorem Held.mono {block : Block} (hheld : Held used base block)
    (hahead : ∀ block, lfs.Ahead block → base.Ahead block) : Held used lfs block :=
  hheld.imp id fun h hafter => h (hahead block hafter)

theorem Held.not_taken {block : Block} (hheld : Held used base block) :
    ¬Taken used base lfs block := by
  intro htaken
  exact hheld.elim htaken.free fun h => h htaken.ahead

theorem Taken.held {block : Block} (htaken : Taken used base lfs block) : Held used lfs block :=
  Or.inr htaken.spent

theorem Taken.widen {middle : Lfs} {block : Block} (hworking : Working used own base middle)
    (htaken : Taken used middle lfs block) : Taken used base lfs block where
  free := htaken.free
  ahead := hworking.ahead block htaken.ahead
  spent := htaken.spent
  lt := hworking.setup.blockCount ▸ htaken.lt

/-- A commit inside another one. -/
theorem Working.trans {middle : Lfs} {own' : Option Block}
    (hheld : ∀ block, own = some block → Held used base block)
    (hown' : ∀ block, own' = some block → Writable used own base middle block)
    (hleft : Working used own base middle) (hright : Working used own' middle lfs) :
    Working used own base lfs where
  setup := hleft.setup.trans hright.setup
  inv := hright.inv
  ahead block h := hleft.ahead block (hright.ahead block h)
  changed block hne := by
    by_cases hsame : lfs.disk block = middle.disk block
    · rw [hsame] at hne
      exact (hleft.changed block hne).imp id fun htaken => htaken.mono hright.ahead
    · apply (hright.changed block hsame).elim
      · exact fun heq => (hown' block heq).mono hright.ahead
      · exact fun htaken => Or.inr (htaken.widen hleft)
  torn block hblock := by
    by_cases hsame : lfs.disk block = middle.disk block
    · rw [hsame]
      exact hleft.torn block hblock
    · apply (hright.changed block hsame).elim
      · exact fun heq => Or.inr ((hright.torn block heq).resolve_left hsame)
      · intro htaken
        have hahead := hleft.ahead block htaken.ahead
        exact (hheld block hblock).elim (fun h => absurd h htaken.free) fun h => absurd hahead h

/-- Writing to a block of the commit. -/
theorem Working.wrote (hworking : Working used own base lfs) {block : Block} {image : BlockImage}
    (hwritable : Writable used own base lfs block) (hwrote : Wrote block image lfs lfs')
    (himage : own = some block → image.commits = []) : Working used own base lfs' := by
  have hahead : ∀ b, lfs'.Ahead b ↔ lfs.Ahead b := fun b => by
    rw [hwrote.eq]
    rfl
  have hdisk : lfs'.disk = Function.update lfs.disk block image := by rw [hwrote.eq]
  refine ⟨hworking.setup.trans (.of_wrote hwrote), ?_, ?_, ?_, ?_⟩
  · rw [hwrote.eq]
    exact ⟨hworking.inv.valid, hworking.inv.room, hworking.inv.clear⟩
  · exact fun b h => hworking.ahead b ((hahead b).mp h)
  · intro b hne
    by_cases hb : b = block
    · subst hb
      exact hwritable.imp id fun htaken => htaken.mono fun b h => (hahead b).mp h
    · rw [hdisk, Function.update_of_ne hb] at hne
      exact (hworking.changed b hne).imp id fun htaken => htaken.mono fun b h => (hahead b).mp h
  · intro b hb
    by_cases heq : b = block
    · subst heq
      rw [hdisk, Function.update_self]
      exact Or.inr (himage hb)
    · rw [hdisk, Function.update_of_ne heq]
      exact hworking.torn b hb

/-! ## The end of a commit that fails -/

/-- A commit that has not moved the root or the global state on disk. -/
structure Paused (used : List Block) (own : Option Block) (base lfs : Lfs) : Prop where
  working : Working used own base lfs
  root : lfs.root = base.root
  gdisk : lfs.gdisk = base.gdisk
  gdelta : lfs.gdelta = base.gdelta

namespace Paused

theorem start (hinv : AllocInv used base) (own : Option Block) : Paused used own base base :=
  ⟨.start hinv own, rfl, rfl, rfl⟩

theorem alloc (hpaused : Paused used own base lfs) (hstep : AllocStep lfs lfs')
    (hinv : AllocInv used lfs') : Paused used own base lfs' := by
  refine ⟨hpaused.working.alloc hstep hinv, ?_, ?_, ?_⟩
  · rw [hstep.eq]
    exact hpaused.root
  · rw [hstep.eq]
    exact hpaused.gdisk
  · rw [hstep.eq]
    exact hpaused.gdelta

theorem reads (hpaused : Paused used own base lfs) (hreads : Reads lfs lfs') :
    Paused used own base lfs' := by
  refine ⟨hpaused.working.reads hreads, ?_, ?_, ?_⟩
  · rw [hreads.eq]
    exact hpaused.root
  · rw [hreads.eq]
    exact hpaused.gdisk
  · rw [hreads.eq]
    exact hpaused.gdelta

theorem marks (hpaused : Paused used own base lfs) (hmarks : Marks lfs lfs') :
    Paused used own base lfs' := by
  refine ⟨hpaused.working.marks hmarks, ?_, ?_, ?_⟩
  · rw [hmarks.eq]
    exact hpaused.root
  · rw [hmarks.eq]
    exact hpaused.gdisk
  · rw [hmarks.eq]
    exact hpaused.gdelta

theorem wrote (hpaused : Paused used own base lfs) {block : Block} {image : BlockImage}
    (hwritable : Writable used own base lfs block) (hwrote : Wrote block image lfs lfs')
    (himage : own = some block → image.commits = []) : Paused used own base lfs' := by
  refine ⟨hpaused.working.wrote hwritable hwrote himage, ?_, ?_, ?_⟩
  · rw [hwrote.eq]
    exact hpaused.root
  · rw [hwrote.eq]
    exact hpaused.gdisk
  · rw [hwrote.eq]
    exact hpaused.gdelta

end Paused

/-- What a failed commit leaves behind.  The window may have been dropped. -/
structure Undone (used : List Block) (own : Option Block) (base lfs : Lfs) : Prop where
  setup : SameSetup base lfs
  root : lfs.root = base.root
  gdisk : lfs.gdisk = base.gdisk
  gdelta : lfs.gdelta = base.gdelta
  changed : ∀ block, lfs.disk block ≠ base.disk block →
    own = some block ∨ block ∉ used ∧ base.Ahead block
  torn : ∀ block, own = some block →
    lfs.disk block = base.disk block ∨ (lfs.disk block).commits = []

theorem Paused.undone (hpaused : Paused used own base lfs) : Undone used own base lfs where
  setup := hpaused.working.setup
  root := hpaused.root
  gdisk := hpaused.gdisk
  gdelta := hpaused.gdelta
  changed block hne := (hpaused.working.changed block hne).imp id fun h => ⟨h.free, h.ahead⟩
  torn := hpaused.working.torn

/-- The blocks of a list after a commit that failed. -/
structure Spared (used : List Block) (own : Option Block) (base lfs : Lfs) : Prop where
  changed : ∀ block, lfs.disk block ≠ base.disk block →
    own = some block ∨ block ∉ used ∧ base.Ahead block
  torn : ∀ block, own = some block →
    lfs.disk block = base.disk block ∨ (lfs.disk block).commits = []

theorem Working.spared (hworking : Working used own base lfs) : Spared used own base lfs where
  changed block hne := (hworking.changed block hne).imp id fun h => ⟨h.free, h.ahead⟩
  torn := hworking.torn

/-- A commit inside another one has failed. -/
theorem Working.spared_undone {middle : Lfs} {own' : Option Block}
    (hheld : ∀ block, own = some block → Held used base block)
    (hown' : ∀ block, own' = some block → Writable used own base middle block)
    (hworking : Working used own base middle) (hundone : Undone used own' middle lfs) :
    Spared used own base lfs where
  changed block hne := by
    by_cases hsame : lfs.disk block = middle.disk block
    · rw [hsame] at hne
      exact hworking.spared.changed block hne
    · apply (hundone.changed block hsame).elim
      · intro heq
        exact (hown' block heq).imp id fun htaken => ⟨htaken.free, htaken.ahead⟩
      · exact fun h => Or.inr ⟨h.1, hworking.ahead block h.2⟩
  torn block hblock := by
    by_cases hsame : lfs.disk block = middle.disk block
    · rw [hsame]
      exact hworking.torn block hblock
    · apply (hundone.changed block hsame).elim
      · exact fun heq => Or.inr ((hundone.torn block heq).resolve_left hsame)
      · intro h
        apply (hheld block hblock).elim
        · exact fun hused => absurd hused h.1
        · exact fun hspent => absurd (hworking.ahead block h.2) hspent

/-- The window and the script play no part. -/
structure Idle (lfs lfs' : Lfs) : Prop where
  eq : lfs' = { lfs with script := lfs'.script, lookahead := lfs'.lookahead }
  suffix : lfs'.script <:+ lfs.script

namespace Idle

theorem of_reads (hreads : Reads lfs lfs') : Idle lfs lfs' := ⟨by rw [hreads.eq], hreads.suffix⟩

theorem of_marks (hmarks : Marks lfs lfs') : Idle lfs lfs' := ⟨by rw [hmarks.eq], hmarks.suffix⟩

end Idle

instance : Std.Refl Idle := ⟨fun _ => ⟨rfl, List.suffix_rfl⟩⟩

instance : IsTrans Lfs Idle :=
  ⟨fun _ _ _ hleft hright => ⟨by rw [hright.eq, hleft.eq], hright.suffix.trans hleft.suffix⟩⟩

theorem Undone.idle (hundone : Undone used own base lfs) (hidle : Idle lfs lfs') :
    Undone used own base lfs' := by
  obtain ⟨⟨hsetup, hsuffix⟩, hroot, hgdisk, hgdelta, hchanged, htorn⟩ := hundone
  have hsuffix' := hidle.suffix.trans hsuffix
  rw [hidle.eq]
  exact ⟨⟨by rw [hsetup], hsuffix'⟩, hroot, hgdisk, hgdelta, hchanged, htorn⟩

theorem idle_lfsAllocScan : Respects Idle lfsAllocScan := by
  apply Respects.bind Respects.get
  intro lfs
  apply Respects.bind (Respects.modify fun _ => ⟨rfl, List.suffix_rfl⟩)
  intro _
  apply Respects.bind
  · apply Respects.attempt
    intro lfs'
    exact (scans_lfsFsTraverse scans_markBlock true () lfs').imp (fun _ _ h => .of_marks h)
      fun _ _ h => .of_marks h.1
  · intro result
    cases result with
    | ok _ => exact Respects.pure _
    | error e =>
        apply Respects.bind (Respects.modify fun _ => ⟨rfl, List.suffix_rfl⟩)
        exact fun _ => Respects.throw _

theorem idle_lfsAlloc : Respects Idle lfsAlloc := by
  have hgo : ∀ fuel, Respects Idle (lfsAllocGo fuel) := by
    intro fuel
    induction fuel with
    | zero => exact Respects.throw _
    | succ fuel ih =>
        rw [lfsAllocGo]
        apply Respects.bind Respects.get
        intro lfs
        have hset : ∀ window, Respects Idle (setLookahead window) := fun window =>
          Respects.modify fun _ => ⟨rfl, List.suffix_rfl⟩
        dsimp only
        apply Respects.ite
        · exact Respects.bind (hset _) fun _ => Respects.pure _
        · apply Respects.ite
          · exact Respects.bind (hset _) fun _ => Respects.throw _
          · apply Respects.bind (hset _)
            intro _
            exact Respects.bind idle_lfsAllocScan fun _ => ih
  exact hgo retryFuel

/-- The device may report a failure after the access has taken effect. -/
def Late (base : Lfs) (failure : Fault) : Prop :=
  failure = .error .io ∧ Event.failedAfter ∈ base.script

/-- How a commit fails: it has changed nothing that counts, and after a lack of
space it can go on. -/
structure Failed (used : List Block) (own : Option Block) (base : Lfs) (failure : Fault)
    (lfs : Lfs) : Prop where
  undone : Late base failure ∨ Undone used own base lfs
  paused : failure = .error .noSpace → Paused used own base lfs

theorem Paused.failed (hpaused : Paused used own base lfs) (failure : Fault) :
    Failed used own base failure lfs :=
  ⟨Or.inr hpaused.undone, fun _ => hpaused⟩

/-- The blocks of the list hold what they held, but for the one the commit may
write, as long as that one has no commits. -/
def Intact (used : List Block) (own : Option Block) (base lfs : Lfs) : Prop :=
  ∀ block ∈ used, SameLog (lfs.disk block) (base.disk block) ∨
    own = some block ∧ (lfs.disk block).commits = []

theorem Working.intact (hworking : Working used own base lfs) : Intact used own base lfs := by
  intro block hused
  by_cases hsame : lfs.disk block = base.disk block
  · rw [hsame]
    exact Or.inl (SameLog.refl _)
  · apply (hworking.changed block hsame).elim
    · exact fun hown => Or.inr ⟨hown, (hworking.torn block hown).resolve_left hsame⟩
    · exact fun htaken => absurd hused htaken.free

/-- The list behind a commit that is not done yet. -/
theorem Intact.chain {dirs : List Mdir} (hintact : Intact (blocksOf dirs) own base lfs)
    (hchain : Chain base.disk dirs) (hown : ∀ dir ∈ dirs, own ≠ some dir.pair.1) :
    Chain lfs.disk dirs := by
  obtain ⟨stop, hstop, hwalk⟩ := hchain
  refine ⟨stop, hstop, hwalk.keeps fun dir hmem => ⟨?_, ?_⟩⟩
  · apply (hintact _ (mem_blocksOf.mpr ⟨dir, hmem, Or.inl rfl⟩)).resolve_right
    exact fun htorn => hown dir hmem htorn.1
  · exact (hintact _ (mem_blocksOf.mpr ⟨dir, hmem, Or.inr rfl⟩)).imp id And.right

/-- A place to commit from: the window is sound for `used`, and every scan during
the commit marks these blocks again. -/
structure Guarded (used : List Block) (own : Option Block) (base : Lfs) : Prop where
  inv : AllocInv used base
  held : ∀ block, own = some block → Held used base block
  covers : ∀ lfs, Intact used own base lfs → ScanCovers used lfs

/-- Every scan marks the blocks of the tail list. -/
theorem Guarded.of_chain {dirs : List Mdir} (hinv : AllocInv (blocksOf dirs) base)
    (hheld : ∀ block, own = some block → Held (blocksOf dirs) base block)
    (hchain : Chain base.disk dirs) (hown : ∀ dir ∈ dirs, own ≠ some dir.pair.1) :
    Guarded (blocksOf dirs) own base :=
  ⟨hinv, hheld, fun _ hintact => (hintact.chain hchain hown).scanCovers⟩

theorem Guarded.inside (hguarded : Guarded used own base) (hworking : Working used own base lfs)
    {own' : Option Block} (hown' : ∀ block, own' = some block → Writable used own base lfs block) :
    Guarded used own' lfs where
  inv := hworking.inv
  held block hblock := by
    apply (hown' block hblock).elim
    · exact fun heq => (hguarded.held block heq).mono hworking.ahead
    · exact Taken.held
  covers lfs' hintact' := by
    apply hguarded.covers
    intro block hused
    apply (hintact' block hused).elim
    · intro hsame
      apply (hworking.intact block hused).imp hsame.trans
      intro htorn
      refine ⟨htorn.1, ?_⟩
      rw [hsame.commits]
      exact htorn.2
    · intro htorn
      apply (hown' block htorn.1).elim
      · exact fun hown => Or.inr ⟨hown, htorn.2⟩
      · exact fun htaken => absurd hused htaken.free

/-- An allocation on the way. -/
theorem Paused.outcome_lfsAlloc (hguarded : Guarded used own base)
    (hpaused : Paused used own base lfs) :
    Outcome lfsAlloc
      (fun block lfs' => Handed used lfs block lfs' ∧ Paused used own base lfs' ∧
        Taken used base lfs' block)
      (fun failure lfs' => Failed used own base failure lfs' ∧
        (failure = .error .noSpace → AllocStep lfs lfs')) lfs := by
  have hcovers := hguarded.covers lfs hpaused.working.intact
  apply ((lfsAlloc_handed hcovers hpaused.working.inv).and (idle_lfsAlloc lfs)).imp
  · intro block lfs' h
    obtain ⟨hhanded, -⟩ := h
    have hahead := hpaused.working.ahead block hhanded.ahead
    exact ⟨hhanded, hpaused.alloc hhanded.step hhanded.inv, hhanded.free, hahead, hhanded.spent,
      hpaused.working.setup.blockCount ▸ hhanded.lt⟩
  · intro failure lfs' h
    obtain ⟨hspace, hidle⟩ := h
    refine ⟨⟨Or.inr (hpaused.undone.idle hidle), fun hfailure => ?_⟩, fun hfailure => ?_⟩
    · obtain ⟨hinv, hstep⟩ := hspace hfailure
      exact hpaused.alloc hstep hinv
    · exact (hspace hfailure).2

end Littlefs
