import Littlefs.Working

/-!
# Rewriting a pair onto its other block

`lfs_dir_compact` tries one block after the other until a commit with the live
tags stands on it.  Every failed try leaves a block without commits, so the
directory is the old one until the last write, and the new one after it.
-/

namespace Littlefs

open Program

/-! ## Offsets -/

/-- The geometry that `lfs_init` admits. -/
structure ConfigWf (cfg : Config) : Prop where
  prog_pos : 0 < cfg.progSize
  metadata_le : cfg.effectiveMax ≤ cfg.blockSize
  block_le : 128 ≤ cfg.blockSize

theorem commitAttrs_le {stop off off' : ℕ} {attrs : List Attr}
    (hcommit : commitAttrs stop off attrs = .ok off') :
    off ≤ off' ∧ (off' = off ∨ off' ≤ stop) := by
  induction attrs generalizing off with
  | nil =>
      cases hcommit
      exact ⟨le_refl _, Or.inl rfl⟩
  | cons attr attrs ih =>
      rw [commitAttrs, List.foldlM_cons] at hcommit
      unfold lfsDirCommitattr at hcommit
      split at hcommit
      · cases hcommit
      · rename_i hfits
        obtain ⟨hle, hend⟩ := ih hcommit
        exact ⟨by omega, by omega⟩

/-- The next tag of the checksum lies further on. -/
theorem commitcrcGo_next {cfg : Config} {stop fuel off off' : ℕ} (hoff : off < stop)
    (hcommit : commitcrcGo cfg stop (fuel + 1) off = .ok off') :
    ∃ noff, off < noff ∧ commitcrcGo cfg stop fuel noff = .ok off' := by
  rw [commitcrcGo, if_pos hoff] at hcommit
  dsimp only at hcommit
  generalize hnoff : (if min (stop - (off + 4)) 0x3fe + (off + 4) < stop then
      min (min (stop - (off + 4)) 0x3fe + (off + 4)) (stop - 20)
    else min (stop - (off + 4)) 0x3fe + (off + 4)) = noff at hcommit
  refine ⟨noff, by split at hnoff <;> omega, ?_⟩
  split at hcommit
  · split at hcommit
    · cases hcommit
    · exact hcommit
  · exact hcommit

theorem commitcrcGo_le {cfg : Config} {stop fuel off off' : ℕ}
    (hcommit : commitcrcGo cfg stop fuel off = .ok off') : off ≤ off' := by
  induction fuel generalizing off with
  | zero =>
      cases hcommit
      exact le_refl _
  | succ fuel ih =>
      by_cases hoff : off < stop
      · obtain ⟨noff, hlt, hnext⟩ := commitcrcGo_next hoff hcommit
        exact hlt.le.trans (ih hnext)
      · rw [commitcrcGo, if_neg hoff] at hcommit
        cases hcommit
        exact le_refl _

theorem le_lfsAlignup {a alignment : ℕ} (hpos : 0 < alignment) : a ≤ lfsAlignup a alignment := by
  unfold lfsAlignup lfsAligndown
  have := Nat.mod_lt (a + alignment - 1) hpos
  omega

theorem dvd_lfsAlignup (a alignment : ℕ) : alignment ∣ lfsAlignup a alignment := by
  rw [lfsAlignup, lfsAligndown]
  exact Nat.dvd_sub_mod _

theorem lfsAlignup_le {a b alignment : ℕ} (hpos : 0 < alignment) (hle : a ≤ b)
    (hdvd : alignment ∣ b) : lfsAlignup a alignment ≤ b := by
  obtain ⟨units, rfl⟩ := hdvd
  have hbelow : lfsAlignup a alignment < alignment * (units + 1) := by
    rw [lfsAlignup, lfsAligndown, Nat.mul_succ]
    omega
  obtain ⟨units', hunits'⟩ := dvd_lfsAlignup a alignment
  rw [hunits'] at hbelow ⊢
  exact Nat.mul_le_mul_left _ (Nat.lt_succ_iff.mp (Nat.lt_of_mul_lt_mul_left hbelow))

/-- The checksum takes up bytes. -/
theorem lfsDirCommitcrc_lt {cfg : Config} (hcfg : ConfigWf cfg) {off off' : ℕ} {erased : Bool}
    (hoff : off = 4 ∨ off ≤ cfg.commitEnd)
    (hcommit : lfsDirCommitcrc cfg off = .ok (off', erased)) : off < off' := by
  have hstop : off < lfsAlignup (min (off + 20) cfg.blockSize) cfg.progSize := by
    refine lt_of_lt_of_le ?_ (le_lfsAlignup hcfg.prog_pos)
    have hblock := hcfg.block_le
    have hmax := hcfg.metadata_le
    have hend : cfg.commitEnd = cfg.effectiveMax - 8 := rfl
    omega
  unfold lfsDirCommitcrc at hcommit
  dsimp only at hcommit
  generalize lfsAlignup (min (off + 20) cfg.blockSize) cfg.progSize = stop at hstop hcommit
  cases hgo : commitcrcGo cfg stop (stop - off + 1) off with
  | error e =>
      rw [hgo] at hcommit
      cases hcommit
  | ok off'' =>
      rw [hgo] at hcommit
      cases hcommit
      obtain ⟨noff, hlt, hnext⟩ := commitcrcGo_next hstop hgo
      exact hlt.trans_le (commitcrcGo_le hnext)

/-! ## One try -/

/-- The live tags of `[first, last)` with the tail of the directory. -/
def compactBody (disk : Block → BlockImage) (attrs : List Mattr) (source : Mdir)
    (first last : ℕ) (dir : Mdir) : List Attr :=
  traverseCompact disk source attrs first last ++
    if lfsPairIsnull dir.tail then [] else [(tailTag dir.split, .pair dir.tail)]

/-- The MOVESTATE tag of a commit. -/
def gstateTags (delta : Gstate) : List Attr :=
  if delta.iszero then [] else [(movestateTag, .gstate delta)]

section

variable {used : List Block} {own : Option Block} {base : Lfs} (hguarded : Guarded used own base)
  (attrs : List Mattr) (source : Mdir) (first last : ℕ)

/-- A state of the commit in which `target` may be written. -/
structure Aimed (used : List Block) (own : Option Block) (base : Lfs) (target : Block)
    (lfs : Lfs) : Prop where
  paused : Paused used own base lfs
  writable : Writable used own base lfs target

variable {lfs lfs' : Lfs} {target : Block}

theorem Aimed.working (haimed : Aimed used own base target lfs) : Working used own base lfs :=
  haimed.paused.working

theorem Aimed.reads (haimed : Aimed used own base target lfs) (hreads : Reads lfs lfs') :
    Aimed used own base target lfs' where
  paused := haimed.paused.reads hreads
  writable := haimed.writable.mono fun block h => by
    rw [hreads.eq] at h
    exact h

theorem Aimed.wrote (haimed : Aimed used own base target lfs) {image : BlockImage}
    (hwrote : Wrote target image lfs lfs') (himage : own = some target → image.commits = []) :
    Aimed used own base target lfs' where
  paused := haimed.paused.wrote haimed.writable hwrote himage
  writable := haimed.writable.mono fun block h => by
    rw [hwrote.eq] at h
    exact h

theorem compactTags_aimed (dir : Mdir) (haimed : Aimed used own base dir.pair.2 lfs) :
    Outcome (compactTags attrs source first last dir)
      (fun result lfs' => Aimed used own base dir.pair.2 lfs' ∧
        result.1 = compactBody lfs'.disk attrs source first last dir ∧
        commitAttrs base.cfg.commitEnd 4 result.1 = .ok result.2)
      (fun _ lfs' => Aimed used own base dir.pair.2 lfs') lfs := by
  rw [compactTags, outcome_bind]
  apply (outcome_lfsBdErase _ lfs).imp
  · intro _ lfs1 hwrote
    have haimed1 := haimed.wrote hwrote fun _ => rfl
    rw [outcome_bind]
    apply (outcome_readLog source lfs1).imp
    · intro _ lfs2 hread
      have haimed2 := haimed1.reads hread.2
      have hcfg : lfs2.cfg = base.cfg := haimed2.working.setup.cfg
      rw [outcome_bind, outcome_get, hcfg]
      dsimp only
      have hbody : (if lfsPairIsnull dir.tail = true then
            traverseCompact lfs2.disk source attrs first last
          else traverseCompact lfs2.disk source attrs first last ++
            [(tailTag dir.split, Payload.pair dir.tail)]) =
          compactBody lfs2.disk attrs source first last dir := by
        unfold compactBody
        split <;> simp
      rw [hbody, outcome_bind]
      cases hoff : commitAttrs base.cfg.commitEnd 4
          (compactBody lfs2.disk attrs source first last dir) with
      | ok off => exact ⟨haimed2, rfl, hoff⟩
      | error e => exact haimed2
    · exact fun _ _ hfails => haimed1.reads hfails.1
  · intro _ lfs1 hfails
    exact hfails.elim haimed.reads fun hwrote => haimed.wrote hwrote fun _ => rfl

include hguarded in
/-- Another block takes the place of one that answered `Corrupt`. -/
theorem compactRelocate_aimed (dir : Mdir) (tired : Bool)
    (haimed : Aimed used own base dir.pair.2 lfs) :
    Outcome (compactRelocate dir tired)
      (fun dir' lfs' => dir' = { dir with pair := (dir.pair.1, dir'.pair.2) } ∧
        Aimed used own base dir'.pair.2 lfs')
      (fun failure lfs' => Failed used own base failure lfs') lfs := by
  rw [compactRelocate, outcome_bind]
  apply (outcome_lfsAllocLookahead _ lfs).imp _ fun _ _ h => h.elim
  intro _ lfs1 hmarks
  have hpaused1 := haimed.paused.marks hmarks.1
  have hwritable1 : Writable used own base lfs1 dir.pair.2 :=
    haimed.writable.mono (AllocStep.of_marks hmarks.1).ahead
  apply outcome_ite
  · exact fun _ => hpaused1.failed _
  · intro _
    rw [outcome_bind]
    apply (hpaused1.outcome_lfsAlloc hguarded).tryError
    · intro block lfs2 hhanded
      exact ⟨rfl, hhanded.2.1, Or.inr hhanded.2.2⟩
    · intro e lfs2 hfails
      obtain ⟨hfailed, hstep⟩ := hfails
      apply outcome_ite
      · exact fun _ => hfailed
      · intro hgoes
        have he : e = .noSpace := by
          by_contra hne
          exact hgoes (Or.inl hne)
        subst he
        exact ⟨rfl, hfailed.paused rfl, hwritable1.mono (hstep rfl).ahead⟩
    · exact fun _ _ _ hfails => hfails.1

/-- What a compaction adds to the MOVESTATE of `dir`. -/
def deltaOf (lfs : Lfs) (dir : Mdir) (relocated : Bool) : Gstate :=
  (if relocated then lfs.gdelta
    else (lfs.gdisk.xor lfs.gstate).xor lfs.gdelta).dropSize.xor (logGstate (readableLog lfs dir))

theorem outcome_compactDelta (dir : Mdir) (relocated : Bool) :
    Outcome (compactDelta dir relocated)
      (fun delta lfs' => delta = deltaOf lfs dir relocated ∧ Reads lfs lfs')
      (fun _ lfs' => Reads lfs lfs') lfs := by
  rw [compactDelta, outcome_bind, outcome_get, lfsDirGetgstate, outcome_bind]
  apply (outcome_readLog dir lfs).imp
  · intro log lfs' hread
    rw [hread.1]
    exact ⟨rfl, hread.2⟩
  · exact fun _ _ hfails => hfails.1

/-- The block of a pair after a compaction. -/
def compactImage (tags : List Attr) (rev off : ℕ) (erased : Bool) : BlockImage :=
  { rev := rev, commits := [{ tags := tags, off := off }], erased := erased }

/-- How the last write fails: not at all, or so that the new commit stands. -/
def ProgFails (used : List Block) (own : Option Block) (base : Lfs) (target : Block)
    (failure : Fault) (lfs : Lfs) : Prop :=
  Late base failure ∨ Aimed used own base target lfs

theorem compactProg_wrote (hcfg : ConfigWf base.cfg) (dir : Mdir) (tags : List Attr) (off : ℕ)
    (delta : Gstate) (haimed : Aimed used own base dir.pair.2 lfs)
    (hoff : commitAttrs base.cfg.commitEnd 4 tags = .ok off) :
    Outcome (compactProg dir tags off delta)
      (fun off' lfs' => 4 < off' ∧ ∃ erased,
        Wrote dir.pair.2 (compactImage (tags ++ gstateTags delta) dir.rev off' erased) lfs lfs')
      (fun failure lfs' => ProgFails used own base dir.pair.2 failure lfs') lfs := by
  obtain ⟨hle, hend⟩ := commitAttrs_le hoff
  have hcfg' : lfs.cfg = base.cfg := haimed.working.setup.cfg
  -- the checksum and the program access, behind all tags
  have hrest : ∀ (tags' : List Attr) (off' : ℕ), tags' = tags ++ gstateTags delta → 4 ≤ off' →
      (off' = 4 ∨ off' ≤ base.cfg.commitEnd) →
      Outcome (do
          let result ← liftExcept (lfsDirCommitcrc lfs.cfg off')
          devProg dir.pair.2 { rev := dir.rev }
            { rev := dir.rev, commits := [{ tags := tags', off := result.1 }],
              erased := result.2 }
          return result.1)
        (fun off' lfs' => 4 < off' ∧ ∃ erased,
          Wrote dir.pair.2 (compactImage (tags ++ gstateTags delta) dir.rev off' erased) lfs lfs')
        (fun failure lfs' => ProgFails used own base dir.pair.2 failure lfs') lfs := by
    intro tags' off' htags hle hend
    rw [htags, hcfg', outcome_bind]
    cases hcrc : lfsDirCommitcrc base.cfg off' with
    | error e => exact Or.inr haimed
    | ok result =>
        obtain ⟨off'', erased⟩ := result
        have hlt := lfsDirCommitcrc_lt hcfg hend hcrc
        rw [liftExcept, outcome_pure]
        dsimp only
        rw [outcome_bind]
        apply (outcome_devProg _ _ _ lfs).imp
        · intro _ lfs' hwrote
          exact ⟨hle.trans_lt hlt, erased, hwrote⟩
        · intro failure lfs' hfails
          apply hfails.elim
          · exact fun hwrote => Or.inr (haimed.wrote hwrote fun _ => rfl)
          · intro hlate
            exact Or.inl ⟨hlate.1, haimed.working.setup.suffix.subset hlate.2.1⟩
  rw [compactProg, outcome_bind, outcome_get]
  apply outcome_ite
  · intro hzero
    exact hrest tags off (by simp [gstateTags, hzero]) hle hend
  · intro hzero
    rw [hcfg', outcome_bind]
    unfold lfsDirCommitattr
    split
    · exact Or.inr haimed
    · rename_i hfits
      rw [← hcfg']
      exact hrest _ _ (by simp [gstateTags, hzero]) (by omega) (Or.inr (by omega))

/-- How a compaction of `dir` ends: `mid` is the state before its last write. -/
structure Compacted (used : List Block) (own : Option Block) (base : Lfs) (attrs : List Mattr)
    (source : Mdir) (first last : ℕ) (dir : Mdir) (result : Mdir × CommitState)
    (lfs' mid : Lfs) : Prop where
  aimed : Aimed used own base result.1.pair.1 mid
  off_lt : 4 < result.1.off
  eq : result.1 = { dir with pair := (result.1.pair.1, dir.pair.1), count := last - first,
                              off := result.1.off }
  state : result.2 = .relocated ∨ result.2 = .ok ∧ result.1.pair.1 = dir.pair.2
  suffix : lfs'.script <:+ mid.script
  wrote : ∃ erased, lfs' = { mid with
    script := lfs'.script
    disk := Function.update mid.disk result.1.pair.1
      (compactImage (compactBody mid.disk attrs source first last dir ++
          gstateTags (deltaOf mid dir (result.2 == .relocated)))
        dir.rev result.1.off erased)
    gdelta := {}
    gdisk := if result.2 = .relocated then mid.gdisk else mid.gstate }

/-- The block that is written does not count before it is written. -/
theorem Compacted.aim {dir : Mdir} {target : Block} {result : Mdir × CommitState} {mid : Lfs}
    (hcompacted : Compacted used own base attrs source first last
      { dir with pair := (dir.pair.1, target) } result lfs' mid)
    (hstate : result.2 = .relocated) :
    Compacted used own base attrs source first last dir result lfs' mid where
  aimed := hcompacted.aimed
  off_lt := hcompacted.off_lt
  eq := hcompacted.eq
  state := Or.inl hstate
  suffix := hcompacted.suffix
  wrote := hcompacted.wrote

include hguarded in
theorem lfsDirCompactGo_compacted (hcfg : ConfigWf base.cfg) (fuel : ℕ) (dir : Mdir)
    (tired relocated : Bool) (haimed : Aimed used own base dir.pair.2 lfs) :
    Outcome (lfsDirCompactGo attrs source first last fuel dir tired relocated)
      (fun result lfs' => (relocated = true → result.2 = .relocated) ∧
        ∃ mid, Compacted used own base attrs source first last dir result lfs' mid)
      (fun failure lfs' => Failed used own base failure lfs') lfs := by
  induction fuel generalizing dir tired relocated lfs with
  | zero => exact haimed.paused.failed _
  | succ fuel ih =>
      -- the turn on another block
      have hretry : ∀ lfs1, Aimed used own base dir.pair.2 lfs1 →
          Outcome (do
              let dir ← compactRelocate dir tired
              lfsDirCompactGo attrs source first last fuel dir false true)
            (fun result lfs' => (relocated = true → result.2 = .relocated) ∧
              ∃ mid, Compacted used own base attrs source first last dir result lfs' mid)
            (fun failure lfs' => Failed used own base failure lfs') lfs1 := by
        intro lfs1 haimed1
        rw [outcome_bind]
        apply (compactRelocate_aimed hguarded dir tired haimed1).imp _ fun _ _ h => h
        intro dir' lfs2 h
        obtain ⟨hdir, haimed2⟩ := h
        apply (ih dir' false true haimed2).imp _ fun _ _ h => h
        intro result lfs3 h
        obtain ⟨hstate, mid, hcompacted⟩ := h
        rw [hdir] at hcompacted
        exact ⟨fun _ => hstate rfl, mid, hcompacted.aim attrs source first last (hstate rfl)⟩
      rw [lfsDirCompactGo, outcome_bind]
      apply (compactTags_aimed attrs source first last dir haimed).tryError
      · intro result lfs1 h
        obtain ⟨tags, off⟩ := result
        obtain ⟨haimed1, htags, hoff⟩ := h
        dsimp only at htags hoff ⊢
        rw [outcome_bind]
        apply (outcome_compactDelta dir relocated).imp _ fun _ _ hreads =>
          (haimed1.reads hreads).paused.failed _
        intro delta lfs2 h
        obtain ⟨hdelta, hreads⟩ := h
        have haimed2 := haimed1.reads hreads
        have hbody : tags = compactBody lfs2.disk attrs source first last dir := by
          rw [htags, hreads.eq]
        have hdelta : delta = deltaOf lfs2 dir relocated := by
          rw [hdelta, hreads.eq]
          rfl
        rw [outcome_bind]
        apply (compactProg_wrote hcfg dir tags off delta haimed2 hoff).tryError
        · intro off' lfs3 h
          obtain ⟨hlt, erased, hwrote⟩ := h
          rw [outcome_bind, outcome_modify]
          refine ⟨fun h => by simp [h], lfs2, ?_⟩
          refine ⟨haimed2, hlt, rfl, ?_, hwrote.suffix, erased, ?_⟩
          · cases relocated <;> simp [Prod.swap]
          · rw [hwrote.eq, hbody, hdelta]
            cases relocated <;> rfl
        · intro e lfs3 hfails
          have hfailed : Failed used own base (.error e) lfs3 := by
            apply hfails.elim
            · intro hlate
              refine ⟨Or.inl hlate, fun hspace => ?_⟩
              rw [hlate.1] at hspace
              cases hspace
            · exact fun haimed3 => haimed3.paused.failed _
          cases e
          case corrupt =>
            apply hretry lfs3
            apply hfails.resolve_left
            intro hlate
            cases hlate.1
          all_goals exact hfailed
        · intro fault lfs3 hfault hfails
          apply hfails.elim
          · exact fun hlate => absurd hlate.1 (hfault _)
          · exact fun haimed3 => haimed3.paused.failed _
      · intro e lfs1 haimed1
        cases e
        case corrupt => exact hretry lfs1 haimed1
        all_goals exact haimed1.paused.failed _
      · exact fun _ _ _ haimed1 => haimed1.paused.failed _

include hguarded in
/-- A compaction ends with one commit on a block that may be written. -/
theorem lfsDirCompact_compacted (hcfg : ConfigWf base.cfg) (dir : Mdir)
    (haimed : Aimed used own base dir.pair.2 lfs) :
    Outcome (lfsDirCompact dir attrs source first last)
      (fun result lfs' => ∃ mid, Compacted used own base attrs source first last
        { dir with rev := dir.rev + 1 } result lfs' mid)
      (fun failure lfs' => Failed used own base failure lfs') lfs := by
  rw [lfsDirCompact, outcome_bind, outcome_get]
  dsimp only
  apply outcome_ite
  · intro _
    rw [outcome_bind]
    apply (haimed.paused.outcome_lfsAlloc hguarded).tryError
    · intro block lfs1 h
      rw [outcome_bind, outcome_pure]
      apply (lfsDirCompactGo_compacted hguarded attrs source first last hcfg retryFuel _ false true
        ⟨h.2.1, Or.inr h.2.2⟩).imp _ fun _ _ h => h
      intro result lfs2 h
      obtain ⟨hstate, mid, hcompacted⟩ := h
      exact ⟨mid, Compacted.aim attrs source first last hcompacted (hstate rfl)⟩
    · intro e lfs1 hfails
      obtain ⟨hfailed, hstep⟩ := hfails
      cases e
      case noSpace =>
        rw [outcome_bind, outcome_pure]
        have haimed1 : Aimed used own base dir.pair.2 lfs1 :=
          ⟨hfailed.paused rfl, haimed.writable.mono (hstep rfl).ahead⟩
        exact (lfsDirCompactGo_compacted hguarded attrs source first last hcfg retryFuel
          { dir with rev := dir.rev + 1 } false true haimed1).imp (fun _ _ h => h.2) fun _ _ h => h
      all_goals exact hfailed
    · exact fun _ _ _ hfails => hfails.1
  · intro _
    exact (lfsDirCompactGo_compacted hguarded attrs source first last hcfg retryFuel
      { dir with rev := dir.rev + 1 } _ false haimed).imp (fun _ _ h => h.2) fun _ _ h => h

end

end Littlefs
