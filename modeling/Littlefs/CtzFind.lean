import Littlefs.CtzIndex
import Littlefs.FileBytes

/-!
# Finding the block of a position

`lfs_ctz_find` follows the pointers of a block list from its head.  It is written
over the reads it makes, so that it runs on the device and on a memory that keeps a
list of what was read.
-/

namespace Littlefs

open SkipLists

/-- `lfs_bd_read`, from the hint, the block, the offset and the length of the buffer. -/
abbrev BdRead (m : Type → Type) := ℕ → Block → ℕ → ℕ → m Bytes

section

variable {m : Type → Type} [Monad m] (bdRead : BdRead m)

/-- The loop of `lfs_ctz_find`; `none` when the fuel is used up. -/
def ctzFindGo (target : ℕ) : ℕ → Block → ℕ → m (Option Block)
  | 0, _, _ => return none
  | fuel + 1, head, current =>
      if current ≤ target then
        return some head
      else do
        let skip := min (lfsNpw2Word (current - target + 1) - 1) (lfsCtzWord current)
        let headBuf ← bdRead 4 head (4 * skip) 4
        ctzFindGo target fuel (readWord headBuf 0) (current - 2 ^ skip)

/-- `lfs_ctz_find`. -/
def ctzFind (blockSize : ℕ) (head : Block) (size pos : ℕ) : m (Option (Block × ℕ)) := do
  if size = 0 then
    return some (blockNull, 0)
  let current := (lfsCtzIndex blockSize (size - 1)).1
  let (target, targetOff) := lfsCtzIndex blockSize pos
  let block ← ctzFindGo bdRead target (current + 1) head current
  return block.map fun block => (block, targetOff)

end

/-! ## Reads that are kept -/

/-- The arguments of one `lfs_bd_read`. -/
structure Access where
  block : Block
  off : ℕ
  size : ℕ
  deriving DecidableEq, Repr

/-- A memory that answers every read and lists it. -/
def tracedRead (bytes : Block → Bytes) : BdRead (StateM (List Access)) :=
  fun _ block off size => do
    modify fun accesses => accesses ++ [⟨block, off, size⟩]
    return slice (bytes block) off size

/-- A block list: block `i` has the address `blocks i`, and stores at `4 * k` the address of
block `i - 2 ^ k`, for every `k` up to `ctz i`. -/
structure CtzList (bytes : Block → Bytes) (blocks : ℕ → Block) (last : ℕ) : Prop where
  pointer : ∀ i ≤ last, 0 < i → ∀ k ≤ lfsCtz i,
    readWord (bytes (blocks i)) (4 * k) = blocks (i - 2 ^ k)

variable {bytes : Block → Bytes} {blocks : ℕ → Block} {last current target fuel : ℕ}
  {accesses : List Access}

/-- Four bytes, read as a word. -/
theorem readWord_slice (data : Bytes) (off : ℕ) :
    readWord (slice data off 4) 0 = readWord data off := by
  simp [readWord, slice]

/-- The exponent that `lfs_ctz_find` takes is that of the jump. -/
theorem skip_eq_jump (hlt : target < current) (hword : current < 2 ^ 32) :
    min (lfsNpw2Word (current - target + 1) - 1) (lfsCtzWord current) = jump current target := by
  rw [lfsNpw2Word_eq (by omega) (by omega), lfsNpw2_succ, lfsCtzWord_eq (by omega) hword,
    lfsCtz_eq (by omega) hword, jump]

/-- What the search reads on its way from `current` to `target`. -/
def findAccesses (blocks : ℕ → Block) (target fuel current : ℕ) : List Access :=
  (route target fuel current).map fun stop => ⟨blocks stop.1, 4 * stop.2, 4⟩

theorem ctzFindGo_traced (hlist : CtzList bytes blocks last) (hlast : current ≤ last)
    (htarget : target ≤ current) (hword : current < 2 ^ 32) (hfuel : current < target + fuel) :
    ctzFindGo (tracedRead bytes) target fuel (blocks current) current accesses =
      (some (blocks target), accesses ++ findAccesses blocks target fuel current) := by
  induction fuel generalizing current accesses with
  | zero => omega
  | succ fuel ih =>
      rw [ctzFindGo, findAccesses, route]
      by_cases hle : current ≤ target
      · have heq : current = target := by omega
        rw [if_pos hle, if_pos hle, heq, List.map_nil, List.append_nil]
        rfl
      · have hlt := not_le.mp hle
        have hcloser := jump_closer hlt
        have hpointer := hlist.pointer current hlast (by omega) (jump current target) (by
          rw [lfsCtz_eq (by omega) hword]
          exact Nat.min_le_right _ _)
        have hrest : ∀ accesses, ctzFindGo (tracedRead bytes) target fuel
            (blocks (current - 2 ^ jump current target)) (current - 2 ^ jump current target)
            accesses = (some (blocks target), accesses ++
              findAccesses blocks target fuel (current - 2 ^ jump current target)) :=
          fun accesses => ih (by omega) hcloser.1 (by omega) (by omega)
        rw [if_neg hle, if_neg hle, skip_eq_jump hlt hword, List.map_cons]
        have hstep : (do
            let headBuf ← tracedRead bytes 4 (blocks current) (4 * jump current target) 4
            ctzFindGo (tracedRead bytes) target fuel (readWord headBuf 0)
              (current - 2 ^ jump current target)) accesses =
            ctzFindGo (tracedRead bytes) target fuel
              (readWord (slice (bytes (blocks current)) (4 * jump current target) 4) 0)
              (current - 2 ^ jump current target)
              (accesses ++ [⟨blocks current, 4 * jump current target, 4⟩]) := rfl
        rw [hstep, readWord_slice, hpointer, hrest, List.append_assoc]
        rfl

/-- `lfs_ctz_find` ends at the block that `lfs_ctz_index` names.  It comes down through blocks
above that one and at most up to the last one, and reads in each a pointer that it has. -/
theorem ctzFind_finds {cfg : Config} (haccepted : cfg.Accepted) {size pos : ℕ}
    (hsize : size < 2 ^ 32) (hpos : pos < size)
    (hlist : CtzList bytes blocks (lfsCtzIndex cfg.blockSize (size - 1)).1) :
    ∃ stops : List (ℕ × ℕ),
      ctzFind (tracedRead bytes) cfg.blockSize (blocks (lfsCtzIndex cfg.blockSize (size - 1)).1)
          size pos [] =
        (some (blocks (lfsCtzIndex cfg.blockSize pos).1, (lfsCtzIndex cfg.blockSize pos).2),
          stops.map fun stop => ⟨blocks stop.1, 4 * stop.2, 4⟩) ∧
      (stops.Pairwise fun stop later => later.1 < stop.1) ∧
      ∀ stop ∈ stops, stop.1 ≤ (lfsCtzIndex cfg.blockSize (size - 1)).1 ∧
        stop.2 ≤ lfsCtz stop.1 ∧ (lfsCtzIndex cfg.blockSize pos).1 ≤ stop.1 - 2 ^ stop.2 ∧
        (lfsCtzIndex cfg.blockSize pos).1 < stop.1 := by
  obtain ⟨last, off, hlast⟩ := exists_ctzAt haccepted.block_ge
    (show size - 1 < 2 ^ 32 by omega)
  obtain ⟨target, targetOff, htarget⟩ := exists_ctzAt haccepted.block_ge
    (show pos < 2 ^ 32 by omega)
  have hle : target ≤ last := htarget.index_mono hlast (by omega)
  have hword : last < 2 ^ 32 := lt_trans hlast.index_lt (by norm_num [ctzLayout, ctzCount])
  rw [lfsCtzIndex_eq hlast (by omega)] at hlist ⊢
  rw [lfsCtzIndex_eq htarget (by omega)]
  dsimp only at hlist ⊢
  refine ⟨route target (last + 1) last, ?_, route_descends, ?_⟩
  · have hrun : ctzFindGo (tracedRead bytes) target (last + 1) (blocks last) last [] =
        (some (blocks target), [] ++ findAccesses blocks target (last + 1) last) :=
      ctzFindGo_traced hlist (le_refl last) hle hword (by omega)
    have hsearch : ctzFind (tracedRead bytes) cfg.blockSize (blocks last) size pos [] =
        (do
          let block ← ctzFindGo (tracedRead bytes) target (last + 1) (blocks last) last
          return block.map fun block => (block, targetOff) : StateM (List Access) _) [] := by
      rw [ctzFind, if_neg (by omega), lfsCtzIndex_eq hlast (by omega),
        lfsCtzIndex_eq htarget (by omega)]
    have hbind : (do
        let block ← ctzFindGo (tracedRead bytes) target (last + 1) (blocks last) last
        return block.map fun block => (block, targetOff) : StateM (List Access) _) [] =
        ((ctzFindGo (tracedRead bytes) target (last + 1) (blocks last) last []).1.map
            fun block => (block, targetOff),
          (ctzFindGo (tracedRead bytes) target (last + 1) (blocks last) last []).2) := rfl
    rw [hsearch, hbind, hrun, List.nil_append]
    rfl
  · intro stop hstop
    obtain ⟨habove, hbelow, htwos, hreach⟩ := route_stops hstop
    refine ⟨hbelow, ?_, hreach, habove⟩
    rw [lfsCtz_eq (by omega) (by omega)]
    exact htwos

/-- Three blocks at the addresses 10, 11 and 12. -/
def threeBlocks : Block → Bytes
  | 11 => wordBytes 10
  | 12 => wordBytes 11 ++ wordBytes 10
  | _ => []

theorem threeBlocks_list : CtzList threeBlocks (fun i => 10 + i) 2 where
  pointer := by decide

/-- From the third block the search jumps to the first. -/
theorem ctzFind_finds_threeBlocks : ∃ stops : List (ℕ × ℕ),
    ctzFind (tracedRead threeBlocks) 512 12 1300 5 [] =
      (some (10, 5), stops.map fun stop => ⟨10 + stop.1, 4 * stop.2, 4⟩) ∧
    ∀ stop ∈ stops, stop.1 ≤ 2 ∧ stop.2 ≤ lfsCtz stop.1 := by
  have hlast : lfsCtzIndex 512 (1300 - 1) = (2, 287) := by decide +kernel
  have hplace : lfsCtzIndex 512 5 = (0, 5) := by decide +kernel
  obtain ⟨stops, hrun, -, hstops⟩ := ctzFind_finds defaultConfig_accepted
    (show 1300 < 2 ^ 32 by norm_num) (show 5 < 1300 by norm_num)
    (show CtzList threeBlocks (fun i => 10 + i) (lfsCtzIndex 512 (1300 - 1)).1 by
      rw [hlast]
      exact threeBlocks_list)
  have hsize : defaultConfig.blockSize = 512 := rfl
  rw [hsize, hlast, hplace] at hrun hstops
  exact ⟨stops, hrun, fun stop hstop => ⟨(hstops stop hstop).1, (hstops stop hstop).2.1⟩⟩

/-! ## On the device -/

/-- A read of the device, without the caches. -/
def readBytes : BdRead FsM := fun _ block off size => do
  let image ← readBlock block
  return slice image.data off size

/-- A search that ran out of fuel. -/
def orOutOfFuel {α : Type} : Option α → FsM α
  | some value => return value
  | none => throw .outOfFuel

theorem lfsCtzFindGo_eq (head : Block) (hword : current < 2 ^ 32) :
    lfsCtzFindGo target fuel head current =
      ctzFindGo readBytes target fuel head current >>= orOutOfFuel := by
  induction fuel generalizing head current with
  | zero => rfl
  | succ fuel ih =>
      rw [lfsCtzFindGo, ctzFindGo]
      by_cases hle : current ≤ target
      · rw [if_pos hle, if_pos hle, pure_bind]
        rfl
      · have hlt := not_le.mp hle
        have hskip : min (lfsNpw2 (current - target + 1) - 1) (lfsCtz current) =
            jump current target := by
          rw [lfsNpw2_succ, lfsCtz_eq (by omega) hword, jump]
        rw [if_neg hle, if_neg hle, skip_eq_jump hlt hword, hskip]
        simp only [readBytes, bind_assoc, pure_bind, readWord_slice]
        congr 1
        funext image
        exact ih _ (lt_of_le_of_lt (Nat.sub_le _ _) hword)

/-- The search on the device is the search over its reads. -/
theorem lfsCtzFind_eq (head : Block) {size pos : ℕ} {lfs : Lfs} (hblock : 128 ≤ lfs.cfg.blockSize)
    (hsize : size < 2 ^ 32) : lfsCtzFind head size pos lfs =
      (ctzFind readBytes lfs.cfg.blockSize head size pos >>= orOutOfFuel) lfs := by
  rw [lfsCtzFind, ctzFind]
  by_cases hzero : size = 0
  · simp only [if_pos hzero, pure_bind]
    rfl
  · obtain ⟨index, off, hat⟩ := exists_ctzAt hblock (show size - 1 < 2 ^ 32 by omega)
    have hword : index < 2 ^ 32 := lt_trans hat.index_lt (by norm_num [ctzLayout, ctzCount])
    have hget : ∀ next : Lfs → FsM (Block × ℕ), (get >>= next) lfs = next lfs lfs :=
      fun next => rfl
    have hafter : ∀ (found : Option Block) (off : ℕ),
        (orOutOfFuel found >>= fun block => pure (block, off)) =
          orOutOfFuel (found.map fun block => (block, off)) := by
      intro found off
      cases found <;> rfl
    rw [if_neg hzero, if_neg hzero, hget, lfsCtzIndex_eq hat (by omega),
      lfsCtzFindGo_eq head hword]
    simp only [bind_assoc, pure_bind, hafter]

end Littlefs
