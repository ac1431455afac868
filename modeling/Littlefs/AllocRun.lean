import Littlefs.InUse

/-!
# Runs of the allocator

Between the calls of the allocator the filesystem may change as it likes, as
long as every block that comes into use was handed out since the last
checkpoint.  A checkpoint forgets the blocks handed out before it, so it may
only be taken when they are in use or given up.
-/

namespace Littlefs

open Program Lookahead

/-- The filesystem, blocks that its traversal reports, and the blocks handed out
since the last checkpoint. -/
structure AllocState where
  lfs : Lfs
  used : List Block
  handed : List Block

/-- The states of the allocator on a device of `blockCount` blocks. -/
inductive AllocRun (blockCount lookaheadSize : ℕ) : AllocState → Prop
  /-- `lfs_mount_` places the window and drops it. -/
  | mounted {lfs : Lfs} {used : List Block} (hcount : lfs.blockCount = blockCount)
      (hsize : lfs.cfg.lookaheadSize = lookaheadSize) (hreports : Reports lfs used)
      (start : ℕ) (hstart : start < blockCount) (buffer : ℕ → Bool)
      (hlookahead : lfs.lookahead = { start := start, ckpoint := blockCount, buffer := buffer }) :
      AllocRun blockCount lookaheadSize ⟨lfs, used, []⟩
  | alloc {s : AllocState} (hrun : AllocRun blockCount lookaheadSize s) {block : Block}
      {lfs' : Lfs} (hok : lfsAlloc s.lfs = .ok block lfs') :
      AllocRun blockCount lookaheadSize ⟨lfs', s.used, block :: s.handed⟩
  | allocFull {s : AllocState} (hrun : AllocRun blockCount lookaheadSize s) {lfs' : Lfs}
      (hfull : lfsAlloc s.lfs = .error (.error .noSpace) lfs') :
      AllocRun blockCount lookaheadSize ⟨lfs', s.used, s.handed⟩
  /-- A scan that fails drops the window, which is a checkpoint. -/
  | allocFails {s : AllocState} (hrun : AllocRun blockCount lookaheadSize s) {e : Error}
      {lfs' : Lfs} (he : e ≠ .noSpace) (hfails : lfsAlloc s.lfs = .error (.error e) lfs') :
      AllocRun blockCount lookaheadSize ⟨lfs', s.used, []⟩
  | scan {s : AllocState} (hrun : AllocRun blockCount lookaheadSize s) {lfs' : Lfs}
      (hok : lfsAllocScan s.lfs = .ok () lfs') :
      AllocRun blockCount lookaheadSize ⟨lfs', s.used, s.handed⟩
  | scanFails {s : AllocState} (hrun : AllocRun blockCount lookaheadSize s) {e : Error}
      {lfs' : Lfs} (hfails : lfsAllocScan s.lfs = .error (.error e) lfs') :
      AllocRun blockCount lookaheadSize ⟨lfs', s.used, []⟩
  | ckpoint {s : AllocState} (hrun : AllocRun blockCount lookaheadSize s) {lfs' : Lfs}
      (hok : lfsAllocCkpoint s.lfs = .ok () lfs') :
      AllocRun blockCount lookaheadSize ⟨lfs', s.used, []⟩
  | drop {s : AllocState} (hrun : AllocRun blockCount lookaheadSize s) {lfs' : Lfs}
      (hok : lfsAllocDrop s.lfs = .ok () lfs') :
      AllocRun blockCount lookaheadSize ⟨lfs', s.used, []⟩
  /-- Anything but the allocator: blocks are freed, and blocks that were handed
  out come into use. -/
  | change {s : AllocState} (hrun : AllocRun blockCount lookaheadSize s) {lfs' : Lfs}
      {used' : List Block} (hcount : lfs'.blockCount = blockCount)
      (hsize : lfs'.cfg.lookaheadSize = lookaheadSize)
      (hlookahead : lfs'.lookahead = s.lfs.lookahead) (hreports : Reports lfs' used')
      (hused : ∀ block ∈ used', block ∈ s.used ∨ block ∈ s.handed) :
      AllocRun blockCount lookaheadSize ⟨lfs', used', s.handed⟩

/-- What the allocator promises in one state. -/
structure AllocSafe (blockCount lookaheadSize : ℕ) (s : AllocState) : Prop where
  next_le : s.lfs.lookahead.next ≤ s.lfs.lookahead.size
  size_le : s.lfs.lookahead.size ≤ 8 * lookaheadSize
  rest_le : s.lfs.lookahead.size - s.lfs.lookahead.next ≤ s.lfs.lookahead.ckpoint
  ckpoint_le : s.lfs.lookahead.ckpoint ≤ blockCount
  free : ∀ block lfs', lfsAlloc s.lfs = .ok block lfs' →
    block < blockCount ∧ block ∉ s.used ∧ block ∉ s.handed
  ends : TraversalEnds s.lfs → ∀ lfs', lfsAlloc s.lfs ≠ .error .outOfFuel lfs'

/-! ## One call -/

/-- The state after a dropped window. -/
structure Dropped (lfs lfs' : Lfs) : Prop where
  eq : lfs' = { lfs with script := lfs'.script, lookahead := lfs'.lookahead }
  start_lt : lfs'.lookahead.start < lfs.blockCount
  size : lfs'.lookahead.size = 0
  next : lfs'.lookahead.next = 0
  ckpoint : lfs'.lookahead.ckpoint = lfs.blockCount

theorem Dropped.valid {lfs lfs' : Lfs} (hdropped : Dropped lfs lfs')
    (hbound : lfs.blockCount ≤ 2 ^ 32) :
    lfs'.lookahead.Valid lfs'.blockCount := by
  have hcount : lfs'.blockCount = lfs.blockCount := by rw [hdropped.eq]
  rw [hcount]
  have hstart := hdropped.start_lt
  refine ⟨by omega, ?_, hstart, ?_, ?_, ?_, hdropped.ckpoint.le⟩
  · rw [hdropped.size]
    exact hbound
  · rw [hdropped.next]
    exact Nat.zero_le _
  · rw [hdropped.size]
    exact Nat.zero_le _
  · rw [hdropped.size]
    exact (Nat.sub_le _ _).trans (Nat.zero_le _)

theorem lfsAllocScan_dropped {lfs : Lfs} (hpos : 0 < lfs.blockCount) :
    Outcome lfsAllocScan (fun _ _ => True)
      (fun failure lfs' => ∀ e, failure = .error e → Dropped lfs lfs') lfs := by
  rw [lfsAllocScan, outcome_bind, outcome_get, outcome_bind, setLookahead, outcome_modify,
    outcome_bind]
  apply (scans_lfsFsTraverse scans_markBlock true () _).tryError
  · exact fun _ _ _ => trivial
  · intro e lfs' h
    rw [outcome_bind, lfsAllocDrop, outcome_modify]
    intro e' _
    have heq := h.1.eq
    refine ⟨?_, ?_, rfl, rfl, ?_⟩
    · rw [heq]
    · rw [heq]
      exact Nat.mod_lt _ hpos
    · rw [heq]
      rfl
  · intro fault lfs' hfault _ e he
    exact absurd he (hfault e)

theorem Dropped.of_step {lfs middle lfs' : Lfs} (hstep : AllocStep lfs middle)
    (hdropped : Dropped middle lfs') : Dropped lfs lfs' where
  eq := by rw [hdropped.eq, hstep.eq]
  start_lt := hstep.blockCount ▸ hdropped.start_lt
  size := hdropped.size
  next := hdropped.next
  ckpoint := hstep.blockCount ▸ hdropped.ckpoint

variable {used : List Block} {lfs : Lfs}

theorem lfsAllocGo_dropped (fuel : ℕ) (hcovers : ScanCovers used lfs) (hinv : AllocInv used lfs) :
    Outcome (lfsAllocGo fuel) (fun _ _ => True)
      (fun failure lfs' => ∀ e, e ≠ .noSpace → failure = .error e → Dropped lfs lfs') lfs := by
  induction fuel generalizing lfs with
  | zero => exact fun e _ h => by cases h
  | succ fuel ih =>
      rw [lfsAllocGo, outcome_bind, outcome_get]
      have hskipped := skip_skipped (lfs.lookahead.size - lfs.lookahead.next) hinv.valid
      obtain ⟨hinv', hstep'⟩ := hinv.skip hskipped
      generalize lfs.lookahead.skip (lfs.lookahead.size - lfs.lookahead.next) = window at *
      dsimp only
      apply outcome_ite
      · intro _
        trivial
      · intro _
        apply outcome_ite
        · intro _ e he h
          cases h
          exact absurd rfl he
        · intro _
          rw [outcome_bind, setLookahead, outcome_modify, outcome_bind]
          have hcovers' := hstep'.scanCovers hcovers
          apply Outcome.intro
          · intro _ lfs1 hrun
            obtain ⟨hstep, hinv''⟩ :=
              (lfsAllocScan_inv hcovers' hinv'.valid hinv'.room).of_ok hrun
            apply (ih (hstep.scanCovers hcovers') hinv'').imp fun _ _ h => h
            intro failure lfs2 h e he hfailure
            exact .of_step hstep' (.of_step hstep (h e he hfailure))
          · intro failure lfs1 hrun e _ hfailure
            exact .of_step hstep'
              ((lfsAllocScan_dropped hinv'.valid.pos).of_error hrun e hfailure)

/-- The window is no larger than its buffer. -/
def Fits (lfs : Lfs) : Prop :=
  lfs.lookahead.size ≤ lookaheadBits lfs.cfg.lookaheadSize

theorem lfsAllocScan_fits (lfs : Lfs) :
    Outcome lfsAllocScan (fun _ lfs' => Fits lfs') (fun _ lfs' => Fits lfs') lfs := by
  rw [lfsAllocScan, outcome_bind, outcome_get, outcome_bind, setLookahead, outcome_modify,
    outcome_bind, outcome_tryError]
  have hmarks : ∀ lfs', Marks { lfs with
      lookahead := lfs.lookahead.moved lfs.blockCount lfs.cfg.lookaheadSize } lfs' →
      Fits lfs' := fun lfs' hmarks => by
    rw [Fits, hmarks.eq]
    exact min_le_left _ _
  apply (scans_lfsFsTraverse scans_markBlock true () _).imp
  · exact fun _ lfs' h => hmarks lfs' h
  · intro failure lfs' h
    cases failure with
    | error e => exact Nat.zero_le _
    | panic reason => exact hmarks lfs' h.1
    | outOfFuel => exact hmarks lfs' h.1
    | badHandle => exact hmarks lfs' h.1

theorem skip_size (fuel : ℕ) (window : Lookahead) : (window.skip fuel).size = window.size := by
  induction fuel generalizing window with
  | zero => rfl
  | succ fuel ih =>
      rw [skip]
      split
      · exact ih _
      · rfl

theorem lfsAllocGo_fits (fuel : ℕ) (hfits : Fits lfs) :
    Outcome (lfsAllocGo fuel) (fun _ lfs' => Fits lfs') (fun _ lfs' => Fits lfs') lfs := by
  induction fuel generalizing lfs with
  | zero => exact hfits
  | succ fuel ih =>
      rw [lfsAllocGo, outcome_bind, outcome_get]
      have hsize := skip_size (lfs.lookahead.size - lfs.lookahead.next) lfs.lookahead
      generalize lfs.lookahead.skip (lfs.lookahead.size - lfs.lookahead.next) = window at *
      have hwindow : ∀ script, Fits { lfs with lookahead := window, script := script } :=
        fun _ => by
          rw [Fits, hsize]
          exact hfits
      dsimp only
      apply outcome_ite
      · intro _
        rw [outcome_bind, setLookahead, outcome_modify, outcome_pure]
        change (window.advance.skip _).size ≤ _
        rw [skip_size]
        exact hwindow lfs.script
      · intro _
        apply outcome_ite
        · exact fun _ => hwindow lfs.script
        · intro _
          rw [outcome_bind, setLookahead, outcome_modify, outcome_bind]
          apply (lfsAllocScan_fits _).imp
          · exact fun _ lfs' h => ih h
          · exact fun _ _ h => h

/-- Stepping uses up the countdown with the window. -/
theorem skip_sum (fuel : ℕ) {window : Lookahead}
    (hrest : window.size - window.next ≤ window.ckpoint) :
    (window.skip fuel).ckpoint + (window.skip fuel).next = window.ckpoint + window.next ∧
      window.size - (window.skip fuel).next ≤ (window.skip fuel).ckpoint := by
  induction fuel generalizing window with
  | zero => exact ⟨rfl, hrest⟩
  | succ fuel ih =>
      rw [skip]
      split
      · rename_i hmarked
        have hlt := hmarked.1
        have hpos : window.ckpoint ≠ 0 := by omega
        have hckpoint : window.advance.ckpoint = window.ckpoint - 1 := by
          simp only [advance, wrappingPred, if_neg hpos]
        have hnext : window.advance.next = window.next + 1 := rfl
        have hsize : window.advance.size = window.size := rfl
        have hstep := ih (show window.advance.size - window.advance.next ≤
          window.advance.ckpoint by omega)
        omega
      · exact ⟨rfl, hrest⟩

theorem lfsAllocScan_window {lfs : Lfs} (hends : TraversalEnds lfs) :
    Outcome lfsAllocScan
      (fun _ lfs' => lfs'.lookahead.next = 0 ∧
        lfs'.lookahead.size = min (lookaheadBits lfs.cfg.lookaheadSize) lfs.lookahead.ckpoint ∧
        lfs'.lookahead.ckpoint = lfs.lookahead.ckpoint ∧
        lfs' = { lfs with script := lfs'.script, lookahead := lfs'.lookahead })
      (fun failure _ => failure ≠ .outOfFuel) lfs := by
  rw [lfsAllocScan, outcome_bind, outcome_get, outcome_bind, setLookahead, outcome_modify,
    outcome_bind]
  have hbare : { lfs with
      lookahead := lfs.lookahead.moved lfs.blockCount lfs.cfg.lookaheadSize }.bare = lfs.bare := rfl
  have htraversal := (scans_lfsFsTraverse scans_markBlock true () _).and (hends.scan hbare)
  rw [outcome_tryError]
  apply htraversal.imp
  · intro _ lfs' h
    rw [outcome_pure, h.1.eq]
    exact ⟨rfl, rfl, rfl, rfl⟩
  · intro failure lfs' h
    have hfailure := h.2
    cases failure with
    | error e => exact fun h => by cases h
    | panic reason => exact hfailure
    | outOfFuel => exact hfailure
    | badHandle => exact hfailure

theorem TraversalEnds.congr {lfs lfs' : Lfs} (hends : TraversalEnds lfs)
    (heq : lfs' = { lfs with script := lfs'.script, lookahead := lfs'.lookahead }) :
    TraversalEnds lfs' := by
  have hbare : lfs'.bare = lfs.bare := by rw [heq]; rfl
  rw [TraversalEnds, hbare]
  exact hends

/-- Every turn but the last counts down, as a window is never empty. -/
theorem lfsAllocGo_ends (fuel : ℕ) (hends : TraversalEnds lfs)
    (hbits : 0 < lookaheadBits lfs.cfg.lookaheadSize)
    (hnext : lfs.lookahead.next ≤ lfs.lookahead.size)
    (hrest : lfs.lookahead.size - lfs.lookahead.next ≤ lfs.lookahead.ckpoint)
    (hfuel : lfs.lookahead.ckpoint + lfs.lookahead.next - lfs.lookahead.size < fuel) :
    Outcome (lfsAllocGo fuel) (fun _ _ => True) (fun failure _ => failure ≠ .outOfFuel) lfs := by
  induction fuel generalizing lfs with
  | zero => exact absurd hfuel (Nat.not_lt_zero _)
  | succ fuel ih =>
      rw [lfsAllocGo, outcome_bind, outcome_get]
      have hsize := skip_size (lfs.lookahead.size - lfs.lookahead.next) lfs.lookahead
      have hsum := skip_sum (lfs.lookahead.size - lfs.lookahead.next) hrest
      generalize lfs.lookahead.skip (lfs.lookahead.size - lfs.lookahead.next) = window at *
      dsimp only
      apply outcome_ite
      · exact fun _ => trivial
      · intro hspent
        apply outcome_ite
        · exact fun _ h => by cases h
        · intro hckpoint
          rw [outcome_bind, setLookahead, outcome_modify, outcome_bind]
          apply (lfsAllocScan_window (hends.congr rfl)).imp _ fun _ _ h => h
          intro _ lfs' h
          obtain ⟨hnext', hsize', hckpoint', heq⟩ := h
          dsimp only at hsize' hckpoint'
          have hcfg : lfs'.cfg = lfs.cfg := by rw [heq]
          apply ih (hends.congr (by rw [heq]))
          · rw [hcfg]
            exact hbits
          · omega
          · omega
          · omega

/-- The pair of the superblock does not fit one block. -/
theorem reported_eq_none {lfs : Lfs} (hcount : lfs.blockCount = 1) : reported lfs = none := by
  have hget : (get : FsM Lfs) lfs.bare = .ok lfs.bare lfs.bare := rfl
  have hcount' : lfs.bare.blockCount = 1 := hcount
  have hfetch : lfsDirFetch (0, 1) lfs.bare = .error (.error .corrupt) lfs.bare := by
    have hrange : outOfRange lfs.bare.blockCount (0, 1) = true := by rw [hcount']; rfl
    apply bind_eq_error.mpr (Or.inl _)
    rw [lfsDirFetchmatch, bind_of_ok hget]
    simp only [if_pos hrange]
    rfl
  obtain ⟨fuel, hfuel⟩ : ∃ fuel, tailFuel lfs.bare = fuel + 1 := by
    rw [tailFuel, hcount']
    exact ⟨35, rfl⟩
  have htails : traverseTails listBlock true (fuel + 1) (0, 1) {} [] lfs.bare =
      .error (.error .corrupt) lfs.bare := by
    have hfst : listBlock [] 0 lfs.bare = .ok [0] lfs.bare := rfl
    have hsnd : listBlock [0] 1 lfs.bare = .ok [0, 1] lfs.bare := rfl
    rw [traverseTails, if_neg (by decide)]
    change ((listBlock [] 0 >>= fun acc => listBlock acc 1 >>= fun acc => lfsDirFetch (0, 1) >>=
      fun dir => (List.range dir.count).foldlM (traverseEntry listBlock true dir) acc >>= fun acc =>
        traverseTails listBlock true fuel dir.tail _ acc) lfs.bare) = _
    rw [bind_of_ok hfst, bind_of_ok hsnd]
    exact bind_eq_error.mpr (Or.inl hfetch)
  have hrun : lfsFsTraverse listBlock true [] lfs.bare = .error (.error .corrupt) lfs.bare := by
    rw [lfsFsTraverse, bind_of_ok hget, hfuel]
    exact bind_eq_error.mpr (Or.inl htails)
  rw [reported, hrun]

/-- A scan on a device without room for the superblock fails, and so does the
allocator. -/
theorem lfsAllocGo_fails (fuel : ℕ) (hends : TraversalEnds lfs) (hreported : reported lfs = none) :
    Outcome (lfsAllocGo (fuel + 1)) (fun _ _ => True) (fun failure _ => failure ≠ .outOfFuel)
      lfs := by
  rw [lfsAllocGo, outcome_bind, outcome_get]
  generalize lfs.lookahead.skip (lfs.lookahead.size - lfs.lookahead.next) = window
  dsimp only
  apply outcome_ite
  · exact fun _ => trivial
  · intro _
    apply outcome_ite
    · exact fun _ h => by cases h
    · intro _
      rw [outcome_bind, setLookahead, outcome_modify, outcome_bind]
      apply ((lfsAllocScan_window (hends.congr rfl)).and (lfsAllocScan_reported _)).imp _
        fun _ _ h => h.1
      intro _ _ h
      obtain ⟨blocks, hblocks⟩ := h.2
      have hsame : reported { lfs with lookahead := window } = reported lfs := reported_congr rfl
      rw [hsame, hreported] at hblocks
      cases hblocks

/-! ## Runs -/

/-- The invariant of the runs. -/
structure AllocOk (blockCount lookaheadSize : ℕ) (s : AllocState) : Prop where
  count : s.lfs.blockCount = blockCount
  lookahead : s.lfs.cfg.lookaheadSize = lookaheadSize
  fits : Fits s.lfs
  inv : AllocInv s.used s.lfs
  reports : Reports s.lfs s.used
  spent : ∀ block ∈ s.handed, ¬s.lfs.Ahead block

namespace AllocOk

variable {blockCount lookaheadSize : ℕ} {s : AllocState}

theorem covers (hok : AllocOk blockCount lookaheadSize s) : ScanCovers s.used s.lfs :=
  hok.reports.scanCovers

/-- A step of the allocator keeps everything but the window. -/
theorem step (hok : AllocOk blockCount lookaheadSize s) {lfs' : Lfs} {handed : List Block}
    (heq : lfs' = { s.lfs with script := lfs'.script, lookahead := lfs'.lookahead })
    (hfits : Fits lfs') (hinv : AllocInv s.used lfs')
    (hspent : ∀ block ∈ handed, ¬lfs'.Ahead block) :
    AllocOk blockCount lookaheadSize ⟨lfs', s.used, handed⟩ where
  count := by rw [← hok.count, heq]
  lookahead := by rw [← hok.lookahead, heq]
  fits := hfits
  inv := hinv
  reports blocks hblocks := hok.reports blocks (by
    rw [← hblocks]
    apply (reported_congr _).symm
    change lfs'.bare = s.lfs.bare
    rw [heq]
    rfl)
  spent := hspent

theorem keep (hok : AllocOk blockCount lookaheadSize s) {lfs' : Lfs} (hstep : AllocStep s.lfs lfs')
    (hfits : Fits lfs') (hinv : AllocInv s.used lfs') :
    AllocOk blockCount lookaheadSize ⟨lfs', s.used, s.handed⟩ :=
  hok.step hstep.eq hfits hinv fun block hblock h => hok.spent block hblock (hstep.ahead block h)

theorem room (hok : AllocOk blockCount lookaheadSize s) :
    Room s.lfs.blockCount s.lfs.cfg.lookaheadSize := hok.inv.room

theorem bound (hok : AllocOk blockCount lookaheadSize s) : s.lfs.blockCount ≤ 2 ^ 32 :=
  (Nat.le_add_right _ _).trans hok.room

theorem dropped (hok : AllocOk blockCount lookaheadSize s) {lfs' : Lfs}
    (hdropped : Dropped s.lfs lfs') : AllocOk blockCount lookaheadSize ⟨lfs', s.used, []⟩ := by
  apply hok.step hdropped.eq
  · rw [Fits, hdropped.size]
    exact Nat.zero_le _
  · refine ⟨hdropped.valid hok.bound, ?_, ?_⟩
    · rw [hdropped.eq]
      exact hok.room
    · intro i _ hi
      rw [hdropped.size] at hi
      exact absurd hi (Nat.not_lt_zero _)
  · exact fun block hblock => absurd hblock List.not_mem_nil

/-- What a call of `lfs_alloc` leaves behind. -/
theorem alloc (hok : AllocOk blockCount lookaheadSize s) :
    Outcome lfsAlloc
      (fun block lfs' => Handed s.used s.lfs block lfs' ∧ block ∉ s.handed ∧
        AllocOk blockCount lookaheadSize ⟨lfs', s.used, block :: s.handed⟩)
      (fun failure lfs' => ∀ e, failure = .error e →
        if e = .noSpace then AllocOk blockCount lookaheadSize ⟨lfs', s.used, s.handed⟩
        else AllocOk blockCount lookaheadSize ⟨lfs', s.used, []⟩) s.lfs := by
  have hfits : Outcome lfsAlloc (fun _ lfs' => Fits lfs') (fun _ lfs' => Fits lfs') s.lfs :=
    lfsAllocGo_fits retryFuel hok.fits
  have hhanded := lfsAlloc_handed hok.covers hok.inv
  have hdropped : Outcome lfsAlloc (fun _ _ => True) (fun failure lfs' =>
      ∀ e, e ≠ .noSpace → failure = .error e → Dropped s.lfs lfs') s.lfs :=
    lfsAllocGo_dropped retryFuel hok.covers hok.inv
  apply ((hfits.and hhanded).and hdropped).imp
  · intro block lfs' h
    obtain ⟨⟨hfits', hhanded'⟩, -⟩ := h
    have hkept := hok.keep hhanded'.step hfits' hhanded'.inv
    refine ⟨hhanded', fun hblock => hok.spent block hblock hhanded'.ahead, ?_⟩
    apply hok.step hhanded'.step.eq hfits' hhanded'.inv
    intro other hother
    apply (List.mem_cons.mp hother).elim
    · intro heq
      rw [heq]
      exact hhanded'.spent
    · exact hkept.spent other
  · intro failure lfs' h e he
    obtain ⟨⟨hfits', hfull⟩, hdropped'⟩ := h
    split
    · rename_i hspace
      obtain ⟨hinv, hstep⟩ := hfull (by rw [he, hspace])
      exact hok.keep hstep hfits' hinv
    · rename_i hspace
      exact hok.dropped (hdropped' e hspace he)

theorem scan (hok : AllocOk blockCount lookaheadSize s) :
    Outcome lfsAllocScan
      (fun _ lfs' => AllocOk blockCount lookaheadSize ⟨lfs', s.used, s.handed⟩)
      (fun failure lfs' => ∀ e, failure = .error e →
        AllocOk blockCount lookaheadSize ⟨lfs', s.used, []⟩) s.lfs := by
  have hinv := lfsAllocScan_inv hok.covers hok.inv.valid hok.room
  apply (((lfsAllocScan_fits s.lfs).and hinv).and (lfsAllocScan_dropped hok.inv.valid.pos)).imp
  · intro _ lfs' h
    obtain ⟨⟨hfits', hstep, hinv'⟩, -⟩ := h
    exact hok.keep hstep hfits' hinv'
  · intro failure lfs' h e he
    exact hok.dropped (h.2 e he)

theorem ckpoint (hok : AllocOk blockCount lookaheadSize s) :
    AllocOk blockCount lookaheadSize
      ⟨{ s.lfs with lookahead := s.lfs.lookahead.checkpoint s.lfs.blockCount }, s.used, []⟩ := by
  have hvalid := hok.inv.valid
  apply hok.step rfl
  · exact hok.fits
  · refine ⟨⟨hvalid.pos, hvalid.bound, hvalid.start_lt, hvalid.next_le, hvalid.size_le, ?_,
      le_refl _⟩, hok.room, hok.inv.clear⟩
    exact (Nat.sub_le _ _).trans hvalid.size_le
  · exact fun block hblock => absurd hblock List.not_mem_nil

theorem change (hok : AllocOk blockCount lookaheadSize s) {lfs' : Lfs} {used' : List Block}
    (hcount : lfs'.blockCount = blockCount) (hsize : lfs'.cfg.lookaheadSize = lookaheadSize)
    (hlookahead : lfs'.lookahead = s.lfs.lookahead) (hreports : Reports lfs' used')
    (hused : ∀ block ∈ used', block ∈ s.used ∨ block ∈ s.handed) :
    AllocOk blockCount lookaheadSize ⟨lfs', used', s.handed⟩ := by
  have hcount' : lfs'.blockCount = s.lfs.blockCount := hcount.trans hok.count.symm
  have hsize' : lfs'.cfg.lookaheadSize = s.lfs.cfg.lookaheadSize := hsize.trans hok.lookahead.symm
  refine ⟨hcount, hsize, ?_, ⟨?_, ?_, ?_⟩, hreports, ?_⟩
  · rw [Fits, hlookahead, hsize']
    exact hok.fits
  · change lfs'.lookahead.Valid lfs'.blockCount
    rw [hlookahead, hcount']
    exact hok.inv.valid
  · change Room lfs'.blockCount lfs'.cfg.lookaheadSize
    rw [hcount', hsize']
    exact hok.room
  · change lfs'.lookahead.Clear lfs'.blockCount (· ∈ used')
    rw [hlookahead, hcount']
    intro i hnext hi hbit hblock
    -- a block that the window stands at was not handed out
    apply (hused _ hblock).elim (hok.inv.clear i hnext hi hbit)
    intro hhanded
    apply hok.spent _ hhanded
    have hrest := hok.inv.valid.rest_le
    refine ⟨i - s.lfs.lookahead.next, by omega, ?_⟩
    rw [hok.inv.valid.blockAt_eq hi.le]
    congr 1
    omega
  · intro block hblock
    change ¬lfs'.lookahead.Ahead lfs'.blockCount block
    rw [hlookahead, hcount']
    exact hok.spent block hblock

end AllocOk

/-- The sizes for which the offsets of the window fit its 32-bit words.  The
bits themselves may only wrap to none where the pair of the superblock does not
fit either. -/
structure WindowFits (blockCount lookaheadSize : ℕ) : Prop where
  turns : 0 < lookaheadBits lookaheadSize ∨ blockCount = 1
  room : Room blockCount lookaheadSize

theorem AllocRun.ok {blockCount lookaheadSize : ℕ} (hroom : Room blockCount lookaheadSize)
    {s : AllocState} (hrun : AllocRun blockCount lookaheadSize s) :
    AllocOk blockCount lookaheadSize s := by
  induction hrun with
  | @mounted lfs used hcount hsize hreports start hstart buffer hlookahead =>
      have hbound : blockCount ≤ 2 ^ 32 := (Nat.le_add_right _ _).trans hroom
      refine ⟨hcount, hsize, ?_, ⟨?_, ?_, ?_⟩, hreports, fun _ h => absurd h List.not_mem_nil⟩
      · rw [Fits, hlookahead]
        exact Nat.zero_le _
      · change lfs.lookahead.Valid lfs.blockCount
        rw [hlookahead, hcount]
        exact ⟨by omega, hbound, hstart, le_refl _, Nat.zero_le _, Nat.zero_le _, le_refl _⟩
      · change Room lfs.blockCount lfs.cfg.lookaheadSize
        rw [hcount, hsize]
        exact hroom
      · change lfs.lookahead.Clear lfs.blockCount (· ∈ used)
        rw [hlookahead]
        exact fun i _ hi => absurd hi (Nat.not_lt_zero _)
  | alloc _ hok ih => exact (ih.alloc.of_ok hok).2.2
  | allocFull _ hfull ih => exact ih.alloc.of_error hfull _ rfl
  | allocFails _ he hfails ih =>
      have hdropped := ih.alloc.of_error hfails _ rfl
      rwa [if_neg he] at hdropped
  | scan _ hok ih => exact ih.scan.of_ok hok
  | scanFails _ hfails ih => exact ih.scan.of_error hfails _ rfl
  | ckpoint _ hok ih =>
      cases hok
      exact ih.ckpoint
  | drop _ hok ih =>
      cases hok
      exact ih.dropped ⟨rfl, ih.inv.valid.start_lt, rfl, rfl, rfl⟩
  | change _ hcount hsize hlookahead hreports hused ih =>
      exact ih.change hcount hsize hlookahead hreports hused

theorem AllocOk.safe {blockCount lookaheadSize : ℕ} {s : AllocState}
    (hfits : WindowFits blockCount lookaheadSize) (hok : AllocOk blockCount lookaheadSize s) :
    AllocSafe blockCount lookaheadSize s where
  next_le := hok.inv.valid.next_le
  size_le := by
    have hle : lookaheadBits lookaheadSize ≤ 8 * lookaheadSize := Nat.mod_le _ _
    have hfits := hok.fits
    rw [Fits, hok.lookahead] at hfits
    exact hfits.trans hle
  rest_le := hok.inv.valid.rest_le
  ckpoint_le := hok.count ▸ hok.inv.valid.ckpoint_le
  free block lfs' hrun := by
    obtain ⟨hhanded, hfresh, -⟩ := hok.alloc.of_ok hrun
    exact ⟨hok.count ▸ hhanded.lt, hhanded.free, hfresh⟩
  ends htraversal lfs' hrun := by
    have hends : Outcome lfsAlloc (fun _ _ => True) (fun failure _ => failure ≠ .outOfFuel)
        s.lfs := by
      apply hfits.turns.elim
      · intro hbits
        have hckpoint := hok.inv.valid.ckpoint_le
        have hbound := hok.bound
        have hnext := hok.inv.valid.next_le
        have hfuel : retryFuel = 2 ^ 32 + 2 := rfl
        apply lfsAllocGo_ends retryFuel htraversal (hok.lookahead ▸ hbits) hnext
          hok.inv.valid.rest_le
        rw [hfuel]
        omega
      · intro hone
        exact lfsAllocGo_fails _ htraversal (reported_eq_none (hok.count.trans hone))
    exact hends.of_error hrun rfl

/-- Every state of every run is safe. -/
def AllocSound (blockCount lookaheadSize : ℕ) : Prop :=
  ∀ s, AllocRun blockCount lookaheadSize s → AllocSafe blockCount lookaheadSize s

theorem WindowFits.sound {blockCount lookaheadSize : ℕ}
    (hfits : WindowFits blockCount lookaheadSize) : AllocSound blockCount lookaheadSize :=
  fun _ hrun => (hrun.ok hfits.room).safe hfits

end Littlefs
