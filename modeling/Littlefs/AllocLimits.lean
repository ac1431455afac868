import Littlefs.AllocRun
import Littlefs.Session

/-!
# Where the window stops fitting

Offsets in the window are computed on 32-bit words.  On a device and with a
window so large that they wrap, a block in use marks the bit of another one, and
the allocator hands it out.  A window whose bits wrap to none makes it spin.
-/

namespace Littlefs

open Program Lookahead

/-! ## A device with one directory -/

/-- The tags of a directory on `block` alone. -/
def directoryTags (block : Block) : List Attr :=
  [(⟨tyDirstruct, 0, 8⟩, .pair (block, block)), (⟨tyDir, 0, 1⟩, .bytes [100])]

/-- A device whose root holds one directory. -/
def oneDirectory (blockCount lookaheadSize : ℕ) (block : Block) : Lfs where
  disk := fun b =>
    if b = 0 then { rev := 1, commits := [{ tags := directoryTags block, off := 64 }] } else {}
  cfg := { smallConfig with blockCount := blockCount, lookaheadSize := lookaheadSize }
  blockCount := blockCount
  nameMax := 0
  fileMax := 0
  attrMax := 0
  inlineMax := 0
  lookahead := { ckpoint := blockCount }

def rootDir : Mdir :=
  { pair := (0, 1), rev := 1, off := 64, count := 1, tail := (blockNull, blockNull) }

theorem reported_oneDirectory (n lookaheadSize : ℕ) (block : Block) :
    reported (oneDirectory (n + 2) lookaheadSize block) = some [0, 1, block, block] := by
  rw [reported]
  generalize hlfs : (oneDirectory (n + 2) lookaheadSize block).bare = lfs
  have hroot : mdirOf lfs.disk (0, 1) = rootDir := by
    rw [← hlfs]
    simp [mdirOf, Lfs.bare, oneDirectory, directoryTags, scanLog, Scan.step, Tag.type1,
      tyDirstruct, tyName, tySplice, tyTail, tyDir, rootDir]
  have hfetch : lfsDirFetch (0, 1) lfs = .ok rootDir lfs := by
    rw [← hroot, ← hlfs]
    rfl
  have hlog : readLog rootDir lfs = .ok (directoryTags block) lfs := by
    rw [← hlfs]
    rfl
  have hslice : getslice lfs.gdisk rootDir (directoryTags block) ⟨0x700, true⟩
      ⟨tyStruct, 0, 8⟩ = some (⟨tyDirstruct, 0, 8⟩, .pair (block, block)) := by
    rw [← hlfs]
    simp [getslice, Lfs.bare, oneDirectory, directoryTags, Gstate.hasmovehere, Gstate.hasmove,
      getsliceGo, Tag.type1, tyDirstruct, tySplice, tyDir, tyStruct, Tag.isdelete]
  have hget : lfsDirGet rootDir ⟨0x700, true⟩ ⟨tyStruct, 0, 8⟩ lfs =
      .ok (⟨tyDirstruct, 0, 8⟩, .pair (block, block)) lfs := by
    have hlfs' : (get : FsM Lfs) lfs = .ok lfs lfs := rfl
    rw [lfsDirGet, bind_of_ok hlog, bind_of_ok hlfs', hslice]
    rfl
  have hentry : traverseEntry listBlock true rootDir [0, 1] 0 lfs =
      .ok [0, 1, block, block] lfs := by
    have htry : tryError (lfsDirGet rootDir ⟨0x700, true⟩ ⟨tyStruct, 0, 8⟩) lfs =
        .ok (.ok (⟨tyDirstruct, 0, 8⟩, .pair (block, block))) lfs := attempt_eq_ok_ok.mpr hget
    rw [traverseEntry, bind_of_ok htry]
    rfl
  have htails : ∀ fuel, traverseTails listBlock true (fuel + 2) (0, 1) {} [] lfs =
      .ok [0, 1, block, block] lfs := by
    intro fuel
    have hentries : (List.range rootDir.count).foldlM (traverseEntry listBlock true rootDir)
        [0, 1] lfs = .ok [0, 1, block, block] lfs := by
      change (traverseEntry listBlock true rootDir [0, 1] 0 >>= pure) lfs = _
      rw [bind_of_ok hentry]
      rfl
    have hfst : listBlock [] 0 lfs = .ok [0] lfs := rfl
    have hsnd : listBlock [0] 1 lfs = .ok [0, 1] lfs := rfl
    rw [traverseTails, if_neg (by decide)]
    change ((listBlock [] 0 >>= fun acc => listBlock acc 1 >>= fun acc => lfsDirFetch (0, 1) >>=
      fun dir => (List.range dir.count).foldlM (traverseEntry listBlock true dir) acc >>= fun acc =>
        traverseTails listBlock true (fuel + 1) dir.tail _ acc) lfs) = _
    rw [bind_of_ok hfst, bind_of_ok hsnd, bind_of_ok hfetch, bind_of_ok hentries]
    rfl
  have hget : (get : FsM Lfs) lfs = .ok lfs lfs := rfl
  obtain ⟨fuel, hfuel⟩ : ∃ fuel, tailFuel lfs = fuel + 2 := by
    have hpos : 0 < (lfs.blockCount + 2) ^ 2 := by positivity
    refine ⟨tailFuel lfs - 2, ?_⟩
    rw [tailFuel, walkFuel]
    omega
  have hmlist : lfs.mlist = [] := by rw [← hlfs]; rfl
  rw [lfsFsTraverse, bind_of_ok hget, hfuel, bind_of_ok (htails fuel), hmlist]
  rfl

/-! ## A window without bits -/

theorem lfsAllocGo_spins {lfs : Lfs} {blocks : List Block} (fuel : ℕ)
    (hreported : reported lfs = some blocks) (hanswered : Answered lfs)
    (hbits : lookaheadBits lfs.cfg.lookaheadSize = 0) (hsize : lfs.lookahead.size = 0)
    (hckpoint : lfs.lookahead.ckpoint ≠ 0) :
    Outcome (lfsAllocGo fuel) (fun _ _ => False) (fun failure _ => failure = .outOfFuel) lfs := by
  induction fuel generalizing lfs with
  | zero => exact rfl
  | succ fuel ih =>
      have hskip : lfs.lookahead.skip (lfs.lookahead.size - lfs.lookahead.next) =
          lfs.lookahead := by
        rw [hsize, Nat.zero_sub]
        rfl
      rw [lfsAllocGo, outcome_bind, outcome_get]
      dsimp only
      rw [hskip, if_neg (by omega), if_neg hckpoint, outcome_bind, setLookahead, outcome_modify,
        outcome_bind]
      apply (lfsAllocScan_met hreported).imp _ fun _ _ h => absurd hanswered h.2
      intro _ lfs' hmet
      have heq := hmet.marks.eq
      apply ih
      · rw [reported_congr hmet.bare, ← hreported]
        exact reported_congr rfl
      · exact hmet.answered hanswered
      · rw [heq]
        exact hbits
      · rw [heq]
        change min (lookaheadBits lfs.cfg.lookaheadSize) lfs.lookahead.ckpoint = 0
        rw [hbits, Nat.zero_min]
      · rw [heq]
        exact hckpoint

/-! ## A window that wraps -/

/-- Stepping does not pass a clear bit. -/
theorem skip_next_le (fuel : ℕ) {window : Lookahead} {i : ℕ} (hnext : window.next ≤ i)
    (hbit : window.buffer i = false) : (window.skip fuel).next ≤ i := by
  induction fuel generalizing window with
  | zero => exact hnext
  | succ fuel ih =>
      rw [skip]
      split
      · rename_i hmarked
        have hne : window.next ≠ i := by
          intro heq
          rw [heq, hbit] at hmarked
          exact absurd hmarked.2 (by decide)
        exact ih (Nat.lt_of_le_of_ne hnext hne) hbit
      · exact hnext

theorem skip_shape (fuel : ℕ) (window : Lookahead) :
    (window.skip fuel).buffer = window.buffer ∧ (window.skip fuel).start = window.start := by
  induction fuel generalizing window with
  | zero => exact ⟨rfl, rfl⟩
  | succ fuel ih =>
      rw [skip]
      split
      · exact ih _
      · exact ⟨rfl, rfl⟩

theorem skip_next_ge (fuel : ℕ) (window : Lookahead) : window.next ≤ (window.skip fuel).next := by
  induction fuel generalizing window with
  | zero => exact le_refl _
  | succ fuel ih =>
      rw [skip]
      split
      · exact (Nat.le_succ _).trans (ih window.advance)
      · exact le_refl _

/-- A window with a clear bit for a block in use. -/
structure Exposed (blockCount lookaheadSize block : ℕ) (s : AllocState) : Prop where
  run : AllocRun blockCount lookaheadSize s
  used : block ∈ s.used
  lt : block < blockCount
  word : block < 2 ^ 32
  count : s.lfs.blockCount = blockCount
  start : s.lfs.lookahead.start = 0
  size : s.lfs.lookahead.size = block + 1
  next : s.lfs.lookahead.next ≤ block
  bit : s.lfs.lookahead.buffer block = false

/-- The allocator comes to that bit in the end. -/
theorem Exposed.not_sound {blockCount lookaheadSize block : ℕ} {s : AllocState}
    (hexposed : Exposed blockCount lookaheadSize block s) :
    ¬AllocSound blockCount lookaheadSize := by
  intro hsound
  induction hdistance : block - s.lfs.lookahead.next using Nat.strong_induction_on
    generalizing s with
  | _ distance ih =>
      obtain ⟨hrun, hused, hlt, hword, hcount, hstart, hsize, hnext, hbit⟩ := hexposed
      generalize hfuel : s.lfs.lookahead.size - s.lfs.lookahead.next = fuel
      have hle := skip_next_le fuel hnext hbit
      obtain ⟨hbuffer, hstart'⟩ := skip_shape fuel s.lfs.lookahead
      have hsize' := skip_size fuel s.lfs.lookahead
      have hge : s.lfs.lookahead.next ≤ (s.lfs.lookahead.skip fuel).next := skip_next_ge _ _
      generalize hwindow : s.lfs.lookahead.skip fuel = window at *
      have hinside : window.next < window.size := by omega
      have hblock : window.blockAt s.lfs.blockCount window.next = window.next := by
        have hnext_word : window.next < 2 ^ 32 := Nat.lt_of_le_of_lt hle hword
        have hnext_lt : window.next < blockCount := Nat.lt_of_le_of_lt hle hlt
        rw [blockAt, hstart', hstart, hcount, Nat.zero_add, Nat.mod_eq_of_lt hnext_word,
          Nat.mod_eq_of_lt hnext_lt]
      generalize hfuel' : window.size - window.next = fuel'
      have halloc : lfsAlloc s.lfs = .ok (window.blockAt s.lfs.blockCount window.next) { s.lfs with
          lookahead := window.advance.skip fuel' } := by
        have hget : (get : FsM Lfs) s.lfs = .ok s.lfs s.lfs := rfl
        change lfsAllocGo (2 ^ 32 + 1 + 1) s.lfs = _
        rw [lfsAllocGo, bind_of_ok hget]
        simp only [hfuel, hwindow, if_pos hinside, hfuel']
        rfl
      rw [hblock] at halloc
      by_cases heq : window.next = block
      · rw [heq] at halloc
        exact ((hsound s hrun).free _ _ halloc).2.1 hused
      · have hadvance : window.advance.next ≤ block := by
          change window.next + 1 ≤ block
          omega
        have hbit' : window.advance.buffer block = false := by
          change window.buffer block = false
          rw [hbuffer, hbit]
        obtain ⟨hbuffer'', hstart''⟩ := skip_shape fuel' window.advance
        have hnext'' : window.next + 1 ≤ (window.advance.skip fuel').next :=
          skip_next_ge fuel' window.advance
        have hle'' := skip_next_le fuel' hadvance hbit'
        refine ih (block - (window.advance.skip fuel').next) (by omega)
          ⟨.alloc hrun halloc, hused, hlt, hword, hcount, ?_, ?_, hle'', ?_⟩ rfl
        · exact hstart''.trans (hstart'.trans hstart)
        · exact (skip_size fuel' window.advance).trans (hsize'.trans hsize)
        · rw [hbuffer'']
          exact hbit'

/-! ## When the allocator is sound -/

section

variable {blockCount lookaheadSize block : ℕ}

theorem oneDirectory_run (hpos : 0 < blockCount) {used : List Block}
    (hreports : Reports (oneDirectory blockCount lookaheadSize block) used) :
    AllocRun blockCount lookaheadSize ⟨oneDirectory blockCount lookaheadSize block, used, []⟩ :=
  .mounted rfl rfl hreports 0 hpos (fun _ => false) rfl

theorem not_allocSound_of_bits (hbits : lookaheadBits lookaheadSize = 0) :
    ¬AllocSound (blockCount + 2) lookaheadSize := by
  intro hsound
  have hreported := reported_oneDirectory blockCount lookaheadSize 0
  have hrun : AllocRun (blockCount + 2) lookaheadSize
      ⟨oneDirectory (blockCount + 2) lookaheadSize 0, [], []⟩ :=
    oneDirectory_run (Nat.succ_pos _) fun _ _ => List.nil_subset _
  have hspins : Outcome lfsAlloc (fun _ _ => False) (fun failure _ => failure = .outOfFuel)
      (oneDirectory (blockCount + 2) lookaheadSize 0) :=
    lfsAllocGo_spins retryFuel hreported (fun _ h => absurd h List.not_mem_nil) hbits rfl
      (Nat.succ_ne_zero _)
  cases hend : lfsAlloc (oneDirectory (blockCount + 2) lookaheadSize 0) with
  | ok block lfs' => exact hspins.of_ok hend
  | error failure lfs' =>
      have hfailure := hspins.of_error hend
      rw [hfailure] at hend
      exact (hsound _ hrun).ends (.of_reported hreported) lfs' hend

/-- The last bit of a window that wraps stays clear for the block it stands for. -/
theorem offsetOf_wraps {window : Lookahead} (hstart : window.start = 0)
    (hlt : blockCount < 2 ^ 32) (hblock : block < blockCount)
    (hwraps : 2 ^ 32 ≤ block + blockCount) :
    window.offsetOf blockCount 0 ≠ block ∧ window.offsetOf blockCount 1 ≠ block ∧
      window.offsetOf blockCount block ≠ block := by
  have hoffset : ∀ b, b < 2 ^ 32 →
      window.offsetOf blockCount b = (b + blockCount) % 2 ^ 32 % blockCount := by
    intro b hb
    rw [offsetOf, hstart, Nat.sub_zero, Nat.add_mod_right, Nat.mod_eq_of_lt hb]
  have hself : (block + blockCount) % 2 ^ 32 = block + blockCount - 2 ^ 32 := by
    rw [Nat.mod_eq_sub_mod hwraps, Nat.mod_eq_of_lt (by omega)]
  refine ⟨?_, ?_, ?_⟩
  · rw [hoffset 0 (by decide), Nat.zero_add, Nat.mod_eq_of_lt hlt, Nat.mod_self]
    omega
  · rw [hoffset 1 (by decide)]
    by_cases hfull : 1 + blockCount = 2 ^ 32
    · rw [hfull, Nat.mod_self, Nat.zero_mod]
      omega
    · have hword : 1 + blockCount < 2 ^ 32 := by omega
      have hone : 1 < blockCount := by omega
      rw [Nat.mod_eq_of_lt hword, Nat.add_mod_right, Nat.mod_eq_of_lt hone]
      omega
  · have hless : block + blockCount - 2 ^ 32 < blockCount := by omega
    rw [hoffset block (hblock.trans hlt), hself, Nat.mod_eq_of_lt hless]
    omega

theorem not_allocSound_of_room (hlt : blockCount < 2 ^ 32)
    (hroom : ¬Room blockCount lookaheadSize) : ¬AllocSound blockCount lookaheadSize := by
  have hwide : 2 ^ 32 < blockCount + min (lookaheadBits lookaheadSize) blockCount :=
    Nat.lt_of_not_le hroom
  obtain ⟨block, hblock⟩ : ∃ block, min (lookaheadBits lookaheadSize) blockCount = block + 1 :=
    Nat.exists_eq_succ_of_ne_zero (by omega)
  have hblock_lt : block < blockCount := by
    have hle := min_le_right (lookaheadBits lookaheadSize) blockCount
    omega
  have hwraps : 2 ^ 32 ≤ block + blockCount := by omega
  obtain ⟨n, rfl⟩ : ∃ n, blockCount = n + 2 := ⟨blockCount - 2, by omega⟩
  have hreported := reported_oneDirectory n lookaheadSize block
  have hreports : Reports (oneDirectory (n + 2) lookaheadSize block) [block] := by
    intro blocks hblocks
    rw [hreported] at hblocks
    cases hblocks
    simp
  have hscan := lfsAllocScan_met hreported
  cases hend : lfsAllocScan (oneDirectory (n + 2) lookaheadSize block) with
  | error failure lfs' =>
      exact absurd (fun _ h => absurd h List.not_mem_nil) (hscan.of_error hend).2
  | ok value lfs' =>
      have hmet := hscan.of_ok hend
      have hshape := hmet.marks.eq
      have hmoved : ((oneDirectory (n + 2) lookaheadSize block).lookahead.moved (n + 2)
          lookaheadSize).start = 0 := by
        change (0 + 0) % 2 ^ 32 % (n + 2) = 0
        rw [Nat.add_zero, Nat.zero_mod, Nat.zero_mod]
      have hstart : lfs'.lookahead.start = 0 := by
        rw [hshape]
        exact hmoved
      have hsize : lfs'.lookahead.size = block + 1 := by
        rw [hshape]
        exact hblock
      have hclear : lfs'.lookahead.buffer block = false := by
        rw [Bool.eq_false_iff]
        intro hbit
        apply ((hmet.buffer block).mp hbit).elim
        · exact fun h => absurd h Bool.false_ne_true
        · intro h
          obtain ⟨other, hother, hoffset, -⟩ := h
          obtain ⟨hzero, hone, hself⟩ := offsetOf_wraps hmoved hlt hblock_lt hwraps
          simp only [List.mem_cons, List.not_mem_nil, or_false] at hother
          rcases hother with rfl | rfl | rfl | rfl
          · exact hzero hoffset
          · exact hone hoffset
          · exact hself hoffset
          · exact hself hoffset
      have hexposed : Exposed (n + 2) lookaheadSize block ⟨lfs', [block], []⟩ := by
        refine ⟨.scan (oneDirectory_run (Nat.succ_pos _) hreports) hend, List.mem_singleton_self _,
          hblock_lt, hblock_lt.trans hlt, ?_, hstart, hsize, ?_, hclear⟩
        · rw [hshape]
          rfl
        · rw [hshape]
          exact Nat.zero_le _
      exact hexposed.not_sound

/-- Exactly for the sizes that fit, no block in use is handed out, the counters
stay in range and every call ends. -/
theorem allocSound_iff (hpos : 0 < blockCount) (hlt : blockCount < 2 ^ 32) :
    AllocSound blockCount lookaheadSize ↔ WindowFits blockCount lookaheadSize := by
  constructor
  · intro hsound
    refine ⟨?_, ?_⟩
    · by_cases hone : blockCount = 1
      · exact Or.inr hone
      · apply Or.inl
        rw [Nat.pos_iff_ne_zero]
        intro hbits
        obtain ⟨n, rfl⟩ : ∃ n, blockCount = n + 2 := ⟨blockCount - 2, by omega⟩
        exact not_allocSound_of_bits hbits hsound
    · by_contra hroom
      exact not_allocSound_of_room hlt hroom hsound
  · exact WindowFits.sound

end

/-- A small device with a window of two bytes. -/
theorem allocSound_iff_small : AllocSound 64 2 ↔ WindowFits 64 2 :=
  allocSound_iff (by decide) (by decide)

/-- On the largest devices a window of one byte already wraps. -/
theorem not_allocSound_large : ¬AllocSound (2 ^ 32 - 2) 1 := by
  apply not_allocSound_of_room
  · decide
  · rw [Room]
    decide

end Littlefs
