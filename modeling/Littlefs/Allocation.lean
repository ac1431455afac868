import Littlefs.Scan

/-!
# What an allocation returns

A block that `lfs_alloc` returns is on the device, outside the blocks that
every scan marks, and was not handed out since the last checkpoint.  A lack of
space leaves the allocator as good as it was.
-/

namespace Littlefs

open Program Lookahead

/-- The window of `lfs` is sound for `used`. -/
structure AllocInv (used : List Block) (lfs : Lfs) : Prop where
  valid : lfs.lookahead.Valid lfs.blockCount
  room : Room lfs.blockCount lfs.cfg.lookaheadSize
  clear : lfs.lookahead.Clear lfs.blockCount (· ∈ used)

/-- The blocks the allocator can still come to before the next checkpoint. -/
def Lfs.Ahead (lfs : Lfs) (block : Block) : Prop := lfs.lookahead.Ahead lfs.blockCount block

/-- Accesses to the device and moves of the window. -/
structure AllocStep (lfs lfs' : Lfs) : Prop where
  eq : lfs' = { lfs with script := lfs'.script, lookahead := lfs'.lookahead }
  suffix : lfs'.script <:+ lfs.script
  ahead : ∀ block, lfs'.Ahead block → lfs.Ahead block

namespace AllocStep

variable {lfs middle lfs' : Lfs}

theorem refl (lfs : Lfs) : AllocStep lfs lfs := ⟨rfl, List.suffix_rfl, fun _ h => h⟩

theorem trans (hleft : AllocStep lfs middle) (hright : AllocStep middle lfs') :
    AllocStep lfs lfs' where
  eq := by rw [hright.eq, hleft.eq]
  suffix := hright.suffix.trans hleft.suffix
  ahead block h := hleft.ahead block (hright.ahead block h)

theorem blockCount (hstep : AllocStep lfs lfs') : lfs'.blockCount = lfs.blockCount := by
  rw [hstep.eq]

theorem disk (hstep : AllocStep lfs lfs') : lfs'.disk = lfs.disk := by rw [hstep.eq]

theorem scanCovers (hstep : AllocStep lfs lfs') {used : List Block}
    (hcovers : ScanCovers used lfs) : ScanCovers used lfs' := fun lfs'' hlfs'' =>
  hcovers lfs'' (by rw [hlfs'', hstep.eq])

theorem of_marks (hmarks : Marks lfs lfs') : AllocStep lfs lfs' where
  eq := by rw [hmarks.eq]
  suffix := hmarks.suffix
  ahead block h := by
    rw [hmarks.eq] at h
    exact h

end AllocStep

/-- `block` has just been handed out. -/
structure Handed (used : List Block) (lfs : Lfs) (block : Block) (lfs' : Lfs) : Prop where
  step : AllocStep lfs lfs'
  inv : AllocInv used lfs'
  lt : block < lfs.blockCount
  free : block ∉ used
  ahead : lfs.Ahead block
  spent : ¬lfs'.Ahead block

/-- Marks leave the shape of the window alone. -/
theorem Marks.valid {lfs lfs' : Lfs} (hmarks : Marks lfs lfs')
    (hvalid : lfs.lookahead.Valid lfs.blockCount) : lfs'.lookahead.Valid lfs'.blockCount := by
  rw [hmarks.eq]
  exact ⟨hvalid.pos, hvalid.bound, hvalid.start_lt, hvalid.next_le, hvalid.size_le,
    hvalid.rest_le, hvalid.ckpoint_le⟩

variable {used : List Block} {lfs : Lfs}

theorem lfsAllocScan_inv (hcovers : ScanCovers used lfs)
    (hvalid : lfs.lookahead.Valid lfs.blockCount)
    (hroom : Room lfs.blockCount lfs.cfg.lookaheadSize) :
    Outcome lfsAllocScan (fun _ lfs' => AllocStep lfs lfs' ∧ AllocInv used lfs')
      (fun failure _ => failure ≠ .error .noSpace) lfs := by
  rw [lfsAllocScan, outcome_bind, outcome_get, outcome_bind, setLookahead, outcome_modify,
    outcome_bind, tryError, outcome_attempt]
  have hmoved : AllocStep lfs { lfs with
      lookahead := lfs.lookahead.moved lfs.blockCount lfs.cfg.lookaheadSize } :=
    ⟨rfl, List.suffix_rfl, fun block h => (ahead_moved hvalid _ _).mp h⟩
  refine (hmoved.scanCovers hcovers _ rfl).imp ?_ ?_
  · rintro - lfs' ⟨hmarks, hmarked⟩
    have hvalid' := hmarks.valid (hvalid.moved hroom)
    refine ⟨hmoved.trans (.of_marks hmarks), hvalid', ?_, clear_of_marked hvalid' hmarked⟩
    rw [hmarks.eq]
    exact hroom
  · rintro failure lfs' ⟨-, hfailure⟩
    cases failure <;> exact hfailure

/-- Stepping over marked bits is a step of the allocator. -/
theorem AllocInv.skip (hinv : AllocInv used lfs) {window : Lookahead}
    (hskipped : Skipped lfs.lookahead window lfs.blockCount) :
    AllocInv used { lfs with lookahead := window } ∧
      AllocStep lfs { lfs with lookahead := window } :=
  ⟨⟨hskipped.valid hinv.valid, hinv.room, hskipped.clear _ hinv.clear⟩,
    ⟨rfl, List.suffix_rfl, hskipped.ahead⟩⟩

theorem lfsAllocGo_handed (fuel : ℕ) (hcovers : ScanCovers used lfs) (hinv : AllocInv used lfs) :
    Outcome (lfsAllocGo fuel) (fun block lfs' => Handed used lfs block lfs')
      (fun failure lfs' => failure = .error .noSpace → AllocInv used lfs' ∧ AllocStep lfs lfs')
      lfs := by
  induction fuel generalizing lfs with
  | zero => exact fun h => by cases h
  | succ fuel ih =>
      rw [lfsAllocGo, outcome_bind, outcome_get]
      have hskipped := skip_skipped (lfs.lookahead.size - lfs.lookahead.next) hinv.valid
      have hclear := skip_next (lfs.lookahead.size - lfs.lookahead.next) (le_refl _)
      obtain ⟨hinv', hstep'⟩ := hinv.skip hskipped
      generalize lfs.lookahead.skip (lfs.lookahead.size - lfs.lookahead.next) = window at *
      dsimp only
      refine outcome_ite (fun hnext => ?_) fun _ => outcome_ite (fun _ => ?_) fun _ => ?_
      · rw [outcome_bind, setLookahead, outcome_modify]
        have hvalid : window.Valid lfs.blockCount := hinv'.valid
        have hadvance := hvalid.advance hnext
        have heager := skip_skipped (window.size - window.next) hadvance
        refine ⟨⟨rfl, List.suffix_rfl, fun block h => ?_⟩, ⟨heager.valid hadvance, hinv.room, ?_⟩,
          ?_, ?_, ?_, fun h => ?_⟩
        · exact hskipped.ahead block (ahead_of_advance hvalid hnext (heager.ahead block h))
        · exact heager.clear _ (Clear.advance hinv'.clear)
        · exact Nat.mod_lt _ hvalid.pos
        · exact hinv'.clear _ (le_refl _) hnext (hclear (hskipped.size_eq ▸ hnext))
        · exact hskipped.ahead _ (ahead_next hvalid hnext)
        · exact not_ahead_advance hvalid hnext (heager.ahead _ h)
      · rw [outcome_bind, setLookahead, outcome_modify]
        exact fun _ => ⟨hinv', hstep'⟩
      · rw [outcome_bind, setLookahead, outcome_modify, outcome_bind]
        refine (lfsAllocScan_inv (hstep'.scanCovers hcovers) hinv'.valid hinv'.room).imp ?_
          fun failure lfs' hfailure h => absurd h hfailure
        rintro - lfs' ⟨hstep, hinv''⟩
        have hstep := hstep'.trans hstep
        refine (ih (hstep.scanCovers hcovers) hinv'').imp ?_ fun failure lfs'' h hfailure =>
          ⟨(h hfailure).1, hstep.trans (h hfailure).2⟩
        rintro block lfs'' ⟨hstep', hinv3, hlt, hfree, hahead, hspent⟩
        exact ⟨hstep.trans hstep', hinv3, hstep.blockCount ▸ hlt, hfree, hstep.ahead _ hahead,
          hspent⟩

/-- `lfs_alloc` returns a block of the device that is not in use and was not
handed out since the last checkpoint. -/
theorem lfsAlloc_handed (hcovers : ScanCovers used lfs) (hinv : AllocInv used lfs) :
    Outcome lfsAlloc (fun block lfs' => Handed used lfs block lfs')
      (fun failure lfs' => failure = .error .noSpace → AllocInv used lfs' ∧ AllocStep lfs lfs')
      lfs :=
  lfsAllocGo_handed retryFuel hcovers hinv

end Littlefs
