import Littlefs.AllocLimits

/-!
# When the allocator reports a full device

After a checkpoint every block gets one look.  The bits that are left in the
window count as looks, although they were computed before the checkpoint: a
block freed since then is passed over.
-/

namespace Littlefs

open Program Lookahead

/-- `lfs_alloc` directly after `lfs_alloc_ckpoint`. -/
def freshAlloc : FsM Block := do
  lfsAllocCkpoint
  lfsAlloc

/-- `lfs_fs_traverse_` reports `block`. -/
def InUse (lfs : Lfs) (block : Block) : Prop :=
  ∃ blocks, reported lfs = some blocks ∧ block ∈ blocks

/-- Whatever the device answers, `NoSpace` is reported of a full device only. -/
def NoSpaceMeansFull (lfs : Lfs) : Prop :=
  ∀ script lfs', freshAlloc { lfs with script := script } = .error (.error .noSpace) lfs' →
    ∀ block < lfs.blockCount, InUse lfs block

namespace Lookahead

variable {window : Lookahead} {blockCount : ℕ}

/-- A bit of the window that is not used up is clear. -/
def HasClear (window : Lookahead) : Prop :=
  ∃ i, window.next ≤ i ∧ i < window.size ∧ window.buffer i = false

/-- The bit of `block` is not used up. -/
def Unread (window : Lookahead) (blockCount : ℕ) (block : Block) : Prop :=
  ∃ i, window.next ≤ i ∧ i < window.size ∧ window.blockAt blockCount i = block

/-- The blocks of the scans to come. -/
def Fresh (window : Lookahead) (blockCount : ℕ) (block : Block) : Prop :=
  ∃ k, k + (window.size - window.next) < window.ckpoint ∧
    block = (window.start + window.size + k) % blockCount

/-- Stepping ends before the window does only at a clear bit. -/
theorem skip_of_not_hasClear (fuel : ℕ) (hfuel : window.size - window.next ≤ fuel)
    (hnext : window.next ≤ window.size) (hclear : ¬window.HasClear) :
    (window.skip fuel).next = window.size := by
  induction fuel generalizing window with
  | zero =>
      change window.next = window.size
      omega
  | succ fuel ih =>
      rw [skip]
      split
      · rename_i hmarked
        have hrest : window.advance.size - window.advance.next ≤ fuel := by
          change window.size - (window.next + 1) ≤ fuel
          omega
        apply ih hrest hmarked.1
        intro hlater
        obtain ⟨i, hi, hsize, hbit⟩ := hlater
        exact hclear ⟨i, (Nat.le_succ _).trans hi, hsize, hbit⟩
      · rename_i hmarked
        by_contra hne
        have hlt : window.next < window.size := lt_of_le_of_ne hnext hne
        apply hclear
        refine ⟨window.next, le_refl _, hlt, ?_⟩
        simpa [hlt] using hmarked

theorem skip_of_hasClear (fuel : ℕ) (hclear : window.HasClear) :
    (window.skip fuel).next < window.size := by
  obtain ⟨i, hnext, hsize, hbit⟩ := hclear
  exact (skip_next_le fuel hnext hbit).trans_lt hsize

/-- One turn around the device comes to every block, first with the bits that
are left and then with new scans. -/
theorem unread_or_fresh (hvalid : window.Valid blockCount) (hfull : window.ckpoint = blockCount)
    {block : ℕ} (hblock : block < blockCount) :
    window.Unread blockCount block ∨ window.Fresh blockCount block := by
  have hpos := hvalid.pos
  have hnext := hvalid.next_le
  have hstart := hvalid.start_lt
  have hsize := hvalid.size_le
  -- how far the block is from the next bit
  obtain ⟨distance, hdistance, hreach⟩ : ∃ distance < blockCount,
      (window.start + window.next + distance) % blockCount = block := by
    refine ⟨(block + 2 * blockCount - (window.start + window.next)) % blockCount,
      Nat.mod_lt _ hpos, ?_⟩
    have hsum : window.start + window.next +
        (block + 2 * blockCount - (window.start + window.next)) = block + 2 * blockCount := by omega
    rw [Nat.add_mod_mod, hsum, Nat.add_mul_mod_self_right, Nat.mod_eq_of_lt hblock]
  by_cases hunread : window.next + distance < window.size
  · apply Or.inl
    refine ⟨window.next + distance, Nat.le_add_right _ _, hunread, ?_⟩
    rw [hvalid.blockAt_eq hunread.le, ← Nat.add_assoc, hreach]
  · apply Or.inr
    refine ⟨window.next + distance - window.size, by omega, ?_⟩
    rw [← hreach]
    congr 1
    omega

theorem not_unread_of_fresh (hvalid : window.Valid blockCount) {block : Block}
    (hfresh : window.Fresh blockCount block) : ¬window.Unread blockCount block := by
  intro hunread
  obtain ⟨k, hk, hblock⟩ := hfresh
  obtain ⟨i, hnext, hsize, hat⟩ := hunread
  rw [hvalid.blockAt_eq hsize.le, hblock] at hat
  have hckpoint := hvalid.ckpoint_le
  have hshift : window.start + window.size + k =
      window.start + i + (window.size - i + k) := by omega
  rw [hshift] at hat
  exact position_ne (by omega) (by omega) hat

/-- The next window takes up the blocks to come. -/
theorem fresh_iff {after : Lookahead} (hvalid : after.Valid blockCount)
    (hstart : after.start = (window.start + window.size) % blockCount) (hnext : after.next = 0)
    (hckpoint : after.ckpoint + (window.size - window.next) = window.ckpoint) (block : Block) :
    window.Fresh blockCount block ↔
      after.Unread blockCount block ∨ after.Fresh blockCount block := by
  have hposition : ∀ k, (after.start + k) % blockCount =
      (window.start + window.size + k) % blockCount := by
    intro k
    rw [hstart, Nat.mod_add_mod]
  constructor
  · intro hfresh
    obtain ⟨k, hk, hblock⟩ := hfresh
    by_cases hunread : k < after.size
    · apply Or.inl
      refine ⟨k, hnext.le.trans (Nat.zero_le k), hunread, ?_⟩
      rw [hvalid.blockAt_eq hunread.le, hposition, hblock]
    · apply Or.inr
      refine ⟨k - after.size, by omega, ?_⟩
      rw [Nat.add_assoc, hposition, hblock]
      congr 1
      omega
  · intro hafter
    apply hafter.elim
    · intro hunread
      obtain ⟨i, -, hsize, hat⟩ := hunread
      have hrest := hvalid.rest_le
      refine ⟨i, by omega, ?_⟩
      rw [← hat, hvalid.blockAt_eq hsize.le, hposition]
    · intro hfresh
      obtain ⟨k, hk, hblock⟩ := hfresh
      refine ⟨after.size + k, by omega, ?_⟩
      rw [hblock, Nat.add_assoc, hposition]

end Lookahead

/-! ## The turns of the allocator -/

/-- A state whose traversal reports `blocks`, all of them on a device that is
small enough for the window. -/
structure Turn (blocks : List Block) (lfs : Lfs) : Prop where
  valid : lfs.lookahead.Valid lfs.blockCount
  half : 2 * lfs.blockCount ≤ 2 ^ 32
  reported : reported lfs = some blocks
  device : ∀ block ∈ blocks, block < lfs.blockCount

/-- No bit that is left is clear, and no block that is left is free. -/
def Exhausted (blocks : List Block) (lfs : Lfs) : Prop :=
  ¬lfs.lookahead.HasClear ∧
    ∀ block, lfs.lookahead.Fresh lfs.blockCount block → block ∈ blocks

section

variable {lfs : Lfs} {blocks : List Block}

theorem Turn.room (hturn : Turn blocks lfs) : Room lfs.blockCount lfs.cfg.lookaheadSize := by
  have hhalf := hturn.half
  have hle := min_le_right (lookaheadBits lfs.cfg.lookaheadSize) lfs.blockCount
  rw [Room]
  omega

/-- The bit of the block that stands at `i` is its own. -/
theorem Met.bit {lfs' : Lfs} (hmet : Met blocks lfs lfs')
    (hvalid : lfs.lookahead.Valid lfs.blockCount) (hhalf : 2 * lfs.blockCount ≤ 2 ^ 32)
    (hdevice : ∀ block ∈ blocks, block < lfs.blockCount)
    (hempty : ∀ i, lfs.lookahead.buffer i = false) {i : ℕ} (hi : i < lfs.lookahead.size) :
    lfs'.lookahead.buffer i = true ↔ lfs.lookahead.blockAt lfs.blockCount i ∈ blocks := by
  rw [hmet.buffer, hempty]
  constructor
  · intro h
    apply h.elim (fun h => absurd h Bool.false_ne_true)
    intro hmarked
    obtain ⟨block, hblock, hoffset, -⟩ := hmarked
    rw [← hoffset, blockAt_of_offsetOf hvalid hhalf (hdevice block hblock) (hoffset ▸ hi)]
    exact hblock
  · exact fun hblock => Or.inr ⟨_, hblock, blockAt_offsetOf hvalid hi, hi⟩

/-- The scan after a window that is used up. -/
theorem Turn.scan (hturn : Turn blocks lfs) {window : Lookahead}
    (hskipped : Skipped lfs.lookahead window lfs.blockCount)
    (hstart : window.start = lfs.lookahead.start) (hnext : window.next = lfs.lookahead.size)
    (hckpoint : window.ckpoint + (lfs.lookahead.size - lfs.lookahead.next) = lfs.lookahead.ckpoint)
    {lfs' : Lfs} (hmet : Met blocks { lfs with
      lookahead := window.moved lfs.blockCount lfs.cfg.lookaheadSize } lfs') :
    Turn blocks lfs' ∧ (Exhausted blocks lfs' ↔
      ∀ block, lfs.lookahead.Fresh lfs.blockCount block → block ∈ blocks) := by
  have hwindow := hskipped.valid hturn.valid
  have hmoved := hwindow.moved hturn.room
  have hvalid' := hmet.marks.valid hmoved
  have hshape := hmet.marks.eq
  have hcount : lfs'.blockCount = lfs.blockCount := hmet.marks.blockCount
  have hstart' : lfs'.lookahead.start =
      (lfs.lookahead.start + lfs.lookahead.size) % lfs.blockCount := by
    rw [hshape]
    change window.blockAt lfs.blockCount window.next = _
    rw [hwindow.blockAt_eq hwindow.next_le, hstart, hnext]
  have hnext' : lfs'.lookahead.next = 0 := by
    rw [hshape]
    rfl
  have hckpoint' : lfs'.lookahead.ckpoint = window.ckpoint := by
    rw [hshape]
    rfl
  have hsize' : lfs'.lookahead.size =
      (window.moved lfs.blockCount lfs.cfg.lookaheadSize).size := by
    rw [hshape]
  have hblockAt : ∀ i, lfs'.lookahead.blockAt lfs.blockCount i =
      (window.moved lfs.blockCount lfs.cfg.lookaheadSize).blockAt lfs.blockCount i := by
    intro i
    rw [hshape]
    rfl
  have hbit : ∀ i < lfs'.lookahead.size, lfs'.lookahead.buffer i = true ↔
      lfs'.lookahead.blockAt lfs.blockCount i ∈ blocks := by
    intro i hi
    rw [hblockAt]
    exact hmet.bit hmoved hturn.half hturn.device (fun _ => rfl) (hsize' ▸ hi)
  have hreported : Littlefs.reported lfs' = some blocks := by
    rw [reported_congr hmet.bare, ← hturn.reported]
    exact reported_congr rfl
  rw [hcount] at hvalid'
  refine ⟨⟨hcount ▸ hvalid', hcount ▸ hturn.half, hreported, hcount ▸ hturn.device⟩, ?_⟩
  have hfresh := fresh_iff hvalid' hstart' hnext' (by rw [hckpoint', hckpoint])
  rw [Exhausted, hcount]
  constructor
  · intro hexhausted block hblock
    apply ((hfresh block).mp hblock).elim
    · intro hunread
      obtain ⟨i, hi, hsize, hat⟩ := hunread
      rw [← hat, ← hbit i hsize]
      by_contra hclear
      exact hexhausted.1 ⟨i, hi, hsize, Bool.eq_false_iff.mpr hclear⟩
    · exact hexhausted.2 block
  · intro hall
    refine ⟨?_, fun block hblock => hall block ((hfresh block).mpr (Or.inr hblock))⟩
    intro hclear
    obtain ⟨i, hi, hsize, hfalse⟩ := hclear
    have hset := (hbit i hsize).mpr (hall _ ((hfresh _).mpr (Or.inl ⟨i, hi, hsize, rfl⟩)))
    rw [hfalse] at hset
    exact Bool.false_ne_true hset

theorem Turn.skip (hturn : Turn blocks lfs) (hclear : ¬lfs.lookahead.HasClear) :
    let window := lfs.lookahead.skip (lfs.lookahead.size - lfs.lookahead.next)
    window.next = lfs.lookahead.size ∧ window.size = lfs.lookahead.size ∧
      window.start = lfs.lookahead.start ∧
      window.ckpoint + (lfs.lookahead.size - lfs.lookahead.next) = lfs.lookahead.ckpoint := by
  intro window
  have hnext : window.next = lfs.lookahead.size :=
    skip_of_not_hasClear _ (le_refl _) hturn.valid.next_le hclear
  obtain ⟨hsum, -⟩ := skip_sum (lfs.lookahead.size - lfs.lookahead.next) hturn.valid.rest_le
  have hle := hturn.valid.next_le
  have hrest := hturn.valid.rest_le
  refine ⟨hnext, skip_size _ _, (skip_shape _ _).2, ?_⟩
  change window.ckpoint + window.next = _ at hsum
  omega

/-- A lack of space is reported after every bit and every block that was left. -/
theorem lfsAllocGo_exhausted (fuel : ℕ) (hturn : Turn blocks lfs) :
    Outcome (lfsAllocGo fuel) (fun _ _ => True)
      (fun failure _ => failure = .error .noSpace → Exhausted blocks lfs) lfs := by
  induction fuel generalizing lfs with
  | zero => exact fun h => by cases h
  | succ fuel ih =>
      rw [lfsAllocGo, outcome_bind, outcome_get]
      have hskipped := skip_skipped (lfs.lookahead.size - lfs.lookahead.next) hturn.valid
      by_cases hclear : lfs.lookahead.HasClear
      · have hinside : (lfs.lookahead.skip (lfs.lookahead.size - lfs.lookahead.next)).next <
            (lfs.lookahead.skip (lfs.lookahead.size - lfs.lookahead.next)).size := by
          rw [skip_size]
          exact skip_of_hasClear _ hclear
        dsimp only
        rw [if_pos hinside, outcome_bind, setLookahead, outcome_modify]
        trivial
      · obtain ⟨hnext, hsize, hstart, hckpoint⟩ := hturn.skip hclear
        generalize lfs.lookahead.skip (lfs.lookahead.size - lfs.lookahead.next) = window at *
        dsimp only
        rw [if_neg (by omega)]
        apply outcome_ite
        · intro hspent _
          refine ⟨hclear, fun block hblock => ?_⟩
          obtain ⟨k, hk, -⟩ := hblock
          omega
        · intro _
          rw [outcome_bind, setLookahead, outcome_modify, outcome_bind]
          have hreported : Littlefs.reported { lfs with lookahead := window } = some blocks := by
            rw [← hturn.reported]
            exact reported_congr rfl
          apply (lfsAllocScan_met hreported).imp
          · intro _ lfs' hmet
            obtain ⟨hturn', hiff⟩ := hturn.scan hskipped hstart hnext hckpoint hmet
            apply (ih hturn').imp fun _ _ h => h
            exact fun _ _ h hfailure => ⟨hclear, hiff.mp (h hfailure)⟩
          · intro failure _ h hfailure
            rw [h.1] at hfailure
            cases hfailure

/-- Without a clear bit or a free block the countdown runs out. -/
theorem lfsAllocGo_full (fuel : ℕ) (hturn : Turn blocks lfs) (hanswered : Answered lfs)
    (hbits : 0 < lookaheadBits lfs.cfg.lookaheadSize) (hexhausted : Exhausted blocks lfs)
    (hfuel : lfs.lookahead.ckpoint + lfs.lookahead.next - lfs.lookahead.size < fuel) :
    Outcome (lfsAllocGo fuel) (fun _ _ => False) (fun failure _ => failure = .error .noSpace)
      lfs := by
  induction fuel generalizing lfs with
  | zero => exact absurd hfuel (Nat.not_lt_zero _)
  | succ fuel ih =>
      rw [lfsAllocGo, outcome_bind, outcome_get]
      have hskipped := skip_skipped (lfs.lookahead.size - lfs.lookahead.next) hturn.valid
      obtain ⟨hnext, hsize, hstart, hckpoint⟩ := hturn.skip hexhausted.1
      generalize lfs.lookahead.skip (lfs.lookahead.size - lfs.lookahead.next) = window at *
      dsimp only
      rw [if_neg (by omega)]
      apply outcome_ite
      · intro _
        rw [outcome_bind, setLookahead, outcome_modify]
        rfl
      · intro hspent
        rw [outcome_bind, setLookahead, outcome_modify, outcome_bind]
        have hreported : Littlefs.reported { lfs with lookahead := window } = some blocks := by
          rw [← hturn.reported]
          exact reported_congr rfl
        apply (lfsAllocScan_met hreported).imp _ fun _ _ h => absurd hanswered h.2
        intro _ lfs' hmet
        obtain ⟨hturn', hiff⟩ := hturn.scan hskipped hstart hnext hckpoint hmet
        have hshape := hmet.marks.eq
        have hsize' : lfs'.lookahead.size =
            min (lookaheadBits lfs.cfg.lookaheadSize) window.ckpoint := by
          rw [hshape]
          rfl
        have hnext' : lfs'.lookahead.next = 0 := by
          rw [hshape]
          rfl
        have hckpoint' : lfs'.lookahead.ckpoint = window.ckpoint := by
          rw [hshape]
          rfl
        apply ih hturn' (hmet.answered hanswered)
        · rw [hshape]
          exact hbits
        · exact hiff.mpr hexhausted.2
        · rw [hsize', hnext', hckpoint']
          omega

/-! ## A call after a checkpoint -/

theorem freshAlloc_eq (lfs : Lfs) : freshAlloc lfs =
    lfsAllocGo retryFuel
      { lfs with lookahead := lfs.lookahead.checkpoint lfs.blockCount } := rfl

theorem Turn.checkpoint (hturn : Turn blocks lfs) (script : List Event) :
    Turn blocks { lfs with
      script := script, lookahead := lfs.lookahead.checkpoint lfs.blockCount } := by
  have hvalid := hturn.valid
  have hrest := hvalid.rest_le
  refine ⟨⟨hvalid.pos, hvalid.bound, hvalid.start_lt, hvalid.next_le, hvalid.size_le,
    hrest.trans hvalid.ckpoint_le, le_refl _⟩, hturn.half, ?_, hturn.device⟩
  rw [← hturn.reported]
  exact reported_congr rfl

theorem Turn.inUse (hturn : Turn blocks lfs) (block : Block) : InUse lfs block ↔
    block ∈ blocks := by
  constructor
  · intro h
    obtain ⟨blocks', hblocks', hblock⟩ := h
    rw [hturn.reported] at hblocks'
    cases hblocks'
    exact hblock
  · exact fun hblock => ⟨blocks, hturn.reported, hblock⟩

end

/-- Six blocks, and a window that was filled before a directory was removed. -/
def removedAfterGc : Lfs :=
  mountedAfter { smallConfig with blockCount := 6 }
    [.mkdir [97], .mkdir [98], .mount { smallConfig with blockCount := 6 } 0, .gc, .remove [98]]

theorem not_noSpaceMeansFull {lfs : Lfs} {blocks : List Block} {block : Block}
    (hreported : reported lfs = some blocks) (hlt : block < lfs.blockCount) (hfree : block ∉ blocks)
    (hanswer : (match freshAlloc lfs with
      | .error (.error .noSpace) _ => true
      | _ => false) = true) : ¬NoSpaceMeansFull lfs := by
  intro hmeans
  split at hanswer
  · rename_i lfs' hend
    obtain ⟨blocks', hblocks', hblock⟩ := hmeans lfs.script lfs' hend block hlt
    rw [hreported] at hblocks'
    cases hblocks'
    exact hfree hblock
  · cases hanswer

end Littlefs
