import Littlefs.CtzFind
import Littlefs.Scan

/-!
# Visiting the blocks of a list

`lfs_ctz_traverse` comes down from the head of a block list and hands every block to
a callback once.  The list of an open file is read through the cache of the file,
which may hold pointers that are not on the device yet.
-/

namespace Littlefs

open Program SkipLists

/-! ## Reads through the cache of a file -/

/-- `lfs_cache_t`. -/
structure LfsCache where
  block : Block
  off : ℕ
  size : ℕ
  buffer : Bytes
  deriving DecidableEq, Repr

/-- The loop of `lfs_bd_read` with a program cache; the read cache is transparent. -/
def lfsBdReadGo (pcache : LfsCache) (block : Block) : ℕ → ℕ → ℕ → FsM Bytes
  | 0, _, _ => return []
  | fuel + 1, off, size =>
      if size = 0 then
        return []
      else if block = pcache.block ∧ off < pcache.off + pcache.size then
        if pcache.off ≤ off then do
          -- is already in pcache
          let diff := min size (pcache.size - (off - pcache.off))
          let rest ← lfsBdReadGo pcache block fuel (off + diff) (size - diff)
          return slice pcache.buffer (off - pcache.off) diff ++ rest
        else do
          -- pcache takes priority
          let diff := min size (pcache.off - off)
          let data ← readBytes diff block off diff
          let rest ← lfsBdReadGo pcache block fuel (off + diff) (size - diff)
          return data ++ rest
      else
        readBytes size block off size

/-- `lfs_bd_read`. -/
def lfsBdRead (pcache : Option LfsCache) : BdRead FsM := fun hint block off size => do
  let lfs ← get
  if lfs.cfg.blockSize < off + size ∨ lfs.blockCount ≠ 0 ∧ lfs.blockCount ≤ block then
    failWith .corrupt
  match pcache with
  | none => readBytes hint block off size
  | some pcache => lfsBdReadGo pcache block size off size

/-- `data`, the bytes of `block` on the device, with those that the cache holds in their
place. -/
def LfsCache.over (pcache : LfsCache) (block : Block) (data : Bytes) : Bytes :=
  if block = pcache.block then overwrite data pcache.off (slice pcache.buffer 0 pcache.size)
  else data

/-- The bytes of the blocks as a read with `pcache` finds them. -/
def Lfs.bytesThrough (lfs : Lfs) (pcache : Option LfsCache) (block : Block) : Bytes :=
  match pcache with
  | none => (lfs.disk block).data
  | some pcache => pcache.over block (lfs.disk block).data

/-- A program that reads `data`, unless the device fails. -/
def Delivers {β : Type} (base : Lfs) (program : FsM β) (data : β) : Prop :=
  ∀ lfs, Reads base lfs → Outcome program (fun value lfs' => value = data ∧ Reads base lfs')
    (fun failure lfs' => Reads base lfs' ∧ failure = .error .io ∧ ¬Answered base) lfs

variable {base : Lfs} {pcache : LfsCache} {block : Block} {off size hint : ℕ}

namespace Delivers

variable {β γ : Type} {program : FsM β} {data : β} {more : Bytes}

theorem pure (data : β) : Delivers base (Pure.pure data) data := fun _ hreads => ⟨rfl, hreads⟩

theorem bind {next : β → FsM γ} {result : γ} (hprogram : Delivers base program data)
    (hnext : Delivers base (next data) result) : Delivers base (program >>= next) result := by
  intro lfs hreads
  rw [outcome_bind]
  apply (hprogram lfs hreads).imp
  · intro value middle h
    rw [h.1]
    exact hnext middle h.2
  · exact fun _ _ h => h

/-- A program may ask for the filesystem. -/
theorem get_bind {next : Lfs → FsM β}
    (hnext : ∀ lfs, Reads base lfs → Delivers base (next lfs) data) :
    Delivers base (get >>= next) data := by
  intro lfs hreads
  rw [outcome_bind, outcome_get]
  exact hnext lfs hreads lfs hreads

/-- What is known beforehand, in front of what is read. -/
theorem cons {program : FsM Bytes} (hprogram : Delivers base program more) (data : Bytes) :
    Delivers base (do let rest ← program; return data ++ rest) (data ++ more) :=
  hprogram.bind (pure _)

end Delivers

theorem delivers_readBlock (hdevice : OnDevice base block) :
    Delivers base (readBlock block) (base.disk block) := by
  intro lfs hreads
  have hdevice' : OnDevice lfs block := by
    rw [hreads.eq]
    exact hdevice
  apply (outcome_readBlock block lfs).imp
  · intro image lfs' h
    obtain ⟨rfl, -, hreads'⟩ := h
    refine ⟨?_, hreads.trans hreads'⟩
    rw [hreads.eq]
  · intro failure lfs' h
    obtain ⟨hreads', hfails⟩ := h
    refine ⟨hreads.trans hreads', ?_⟩
    apply hfails.elim
    · exact fun h => absurd hdevice' h.2
    · exact fun h => ⟨h.1, fun hanswered => h.2 (hreads.answered hanswered)⟩

theorem delivers_readBytes (hdevice : OnDevice base block) :
    Delivers base (readBytes hint block off size) (slice (base.disk block).data off size) :=
  (delivers_readBlock hdevice).bind (Delivers.pure _)

/-- Bytes that the cache holds. -/
theorem slice_over_inside {data : Bytes} (hle : pcache.off ≤ off)
    (hinside : off + size ≤ pcache.off + pcache.size) :
    slice (pcache.over pcache.block data) off size =
      slice pcache.buffer (off - pcache.off) size := by
  rw [LfsCache.over, if_pos rfl]
  apply List.map_congr_left
  intro i hi
  have hlt : i < size := List.mem_range.mp hi
  rw [getD_overwrite, length_slice, if_pos (by omega), getD_slice, if_pos (by omega), Nat.zero_add]
  congr 1
  omega

/-- Bytes before or behind those that the cache holds. -/
theorem slice_over_outside {data : Bytes}
    (houtside : block = pcache.block → off + size ≤ pcache.off ∨ pcache.off + pcache.size ≤ off) :
    slice (pcache.over block data) off size = slice data off size := by
  rw [LfsCache.over]
  split
  · rename_i hblock
    apply slice_congr
    intro i hi
    have hapart := houtside hblock
    rw [getD_overwrite, length_slice, if_neg (by omega)]
  · rfl

theorem delivers_lfsBdReadGo (hdevice : OnDevice base block) {fuel : ℕ} (hfuel : size ≤ fuel) :
    Delivers base (lfsBdReadGo pcache block fuel off size)
      (slice (pcache.over block (base.disk block).data) off size) := by
  induction fuel generalizing off size with
  | zero =>
      obtain rfl : size = 0 := by omega
      exact Delivers.pure _
  | succ fuel ih =>
      rw [lfsBdReadGo]
      by_cases hzero : size = 0
      · rw [if_pos hzero, hzero]
        exact Delivers.pure _
      · rw [if_neg hzero]
        by_cases hhere : block = pcache.block ∧ off < pcache.off + pcache.size
        · rw [if_pos hhere]
          obtain ⟨hblock, hlt⟩ := hhere
          by_cases hle : pcache.off ≤ off
          · rw [if_pos hle]
            have hsplit : slice (pcache.over block (base.disk block).data) off size =
                slice pcache.buffer (off - pcache.off)
                    (min size (pcache.size - (off - pcache.off))) ++
                  slice (pcache.over block (base.disk block).data)
                    (off + min size (pcache.size - (off - pcache.off)))
                    (size - min size (pcache.size - (off - pcache.off))) := by
              have hinside : slice (pcache.over pcache.block (base.disk block).data) off
                  (min size (pcache.size - (off - pcache.off))) =
                    slice pcache.buffer (off - pcache.off)
                      (min size (pcache.size - (off - pcache.off))) :=
                slice_over_inside hle (by omega)
              rw [← hinside, ← hblock, ← slice_add]
              congr 1
              omega
            rw [hsplit]
            exact (ih (by omega)).cons _
          · rw [if_neg hle]
            have hsplit : slice (pcache.over block (base.disk block).data) off size =
                slice (base.disk block).data off (min size (pcache.off - off)) ++
                  slice (pcache.over block (base.disk block).data)
                    (off + min size (pcache.off - off)) (size - min size (pcache.off - off)) := by
              have houtside : slice (pcache.over block (base.disk block).data) off
                  (min size (pcache.off - off)) =
                    slice (base.disk block).data off (min size (pcache.off - off)) :=
                slice_over_outside fun _ => Or.inl (by omega)
              rw [← houtside, ← slice_add]
              congr 1
              omega
            rw [hsplit]
            exact (delivers_readBytes hdevice).bind ((ih (by omega)).cons _)
        · rw [if_neg hhere, slice_over_outside fun hblock =>
            Or.inr (not_lt.mp fun hlt => hhere ⟨hblock, hlt⟩)]
          exact delivers_readBytes hdevice

/-- A read takes the bytes from the cache as far as the cache has them. -/
theorem delivers_lfsBdRead {pcache : Option LfsCache} (hdevice : OnDevice base block)
    (hinside : off + size ≤ base.cfg.blockSize) :
    Delivers base (lfsBdRead pcache hint block off size)
      (slice (base.bytesThrough pcache block) off size) := by
  apply Delivers.get_bind
  intro lfs hreads
  have hchecked : ¬(lfs.cfg.blockSize < off + size ∨
      lfs.blockCount ≠ 0 ∧ lfs.blockCount ≤ block) := by
    rw [hreads.eq]
    exact fun h => h.elim (not_lt.mpr hinside) hdevice
  rw [if_neg hchecked]
  cases pcache with
  | none => exact delivers_readBytes hdevice
  | some pcache => exact delivers_lfsBdReadGo hdevice (le_refl _)

/-! ## Walks that call back -/

section

variable {α : Type}

/-- A callback of the source: a closure with the state `α`, which cannot reach the
filesystem. -/
def callback (step : α → Block → Except Error α) (acc : α) (block : Block) : FsM α :=
  liftExcept (step acc block)

/-- `walk` calls back for `blocks`, one after the other, and stops early only where the callback
or the device fails. -/
def Calls (step : α → Block → Except Error α) (base : Lfs) (walk : α → FsM α)
    (blocks : List Block) : Prop :=
  ∀ acc lfs, Reads base lfs → Outcome (walk acc)
    (fun acc' lfs' => Reads base lfs' ∧ blocks.foldlM step acc = .ok acc')
    (fun failure lfs' => Reads base lfs' ∧ (failure = .error .io ∧ ¬Answered base ∨
      ∃ e, failure = .error e ∧ blocks.foldlM step acc = .error e)) lfs

namespace Calls

variable {step : α → Block → Except Error α} {walk next : α → FsM α} {blocks more : List Block}

theorem pure : Calls step base Pure.pure [] := fun _ _ hreads => ⟨hreads, rfl⟩

theorem one (block : Block) : Calls step base (fun acc => callback step acc block) [block] := by
  intro acc lfs hreads
  change Outcome (liftExcept (step acc block)) _ _ lfs
  rw [List.foldlM_cons]
  cases step acc block with
  | ok acc' => exact ⟨hreads, rfl⟩
  | error e => exact ⟨hreads, Or.inr ⟨e, rfl, rfl⟩⟩

theorem bind (hwalk : Calls step base walk blocks) (hnext : Calls step base next more) :
    Calls step base (fun acc => walk acc >>= next) (blocks ++ more) := by
  intro acc lfs hreads
  rw [outcome_bind]
  apply (hwalk acc lfs hreads).imp
  · intro acc' middle h
    rw [List.foldlM_append, h.2]
    exact hnext acc' middle h.1
  · intro failure middle h
    refine ⟨h.1, h.2.imp id fun herror => ?_⟩
    obtain ⟨e, rfl, herror⟩ := herror
    exact ⟨e, rfl, by rw [List.foldlM_append, herror]; rfl⟩

/-- A read in front of a walk. -/
theorem read_bind {β : Type} {program : FsM β} {data : β} {next : β → α → FsM α}
    (hprogram : Delivers base program data) (hnext : Calls step base (next data) blocks) :
    Calls step base (fun acc => program >>= fun data => next data acc) blocks := by
  intro acc lfs hreads
  rw [outcome_bind]
  apply (hprogram lfs hreads).imp
  · intro value middle h
    rw [h.1]
    exact hnext acc middle h.2
  · exact fun _ _ h => ⟨h.1, Or.inl h.2⟩

/-- A walk that a condition lets run. -/
theorem ite {condition : Prop} [Decidable condition]
    (hwalk : condition → Calls step base walk blocks) :
    Calls step base (fun acc => if condition then walk acc else Pure.pure acc)
      (if condition then blocks else []) := by
  by_cases hcondition : condition
  · simp only [if_pos hcondition]
    exact hwalk hcondition
  · simp only [if_neg hcondition]
    exact pure

theorem foldlM {γ : Type} {walk : α → γ → FsM α} {visited : γ → List Block} (inputs : List γ)
    (hwalk : ∀ input ∈ inputs, Calls step base (fun acc => walk acc input) (visited input)) :
    Calls step base (fun acc => inputs.foldlM walk acc) (inputs.flatMap visited) := by
  induction inputs with
  | nil => exact pure
  | cons input inputs ih =>
      simp only [List.foldlM_cons, List.flatMap_cons]
      exact (hwalk input List.mem_cons_self).bind
        (ih fun other hmem => hwalk other (List.mem_cons_of_mem _ hmem))

end Calls

/-! ## The walk over a block list -/

variable (cb : α → Block → FsM α) (bdRead : BdRead FsM)

/-- The loop of `lfs_ctz_traverse`. -/
def ctzTraverseGo : ℕ → Block → ℕ → α → FsM α
  | 0, _, _, _ => throw .outOfFuel
  | fuel + 1, head, index, acc => do
      let acc ← cb acc head
      if index = 0 then
        return acc
      let count := 2 - index % 2
      let heads ← bdRead (4 * count) head 0 (4 * count)
      let acc ← (List.range (count - 1)).foldlM (fun acc i => cb acc (readWord heads (4 * i))) acc
      ctzTraverseGo fuel (readWord heads (4 * (count - 1))) (index - count) acc

/-- `lfs_ctz_traverse`. -/
def ctzTraverse (head : Block) (size : ℕ) (acc : α) : FsM α := do
  if size = 0 then
    return acc
  let lfs ← get
  let index := (lfsCtzIndex lfs.cfg.blockSize (size - 1)).1
  ctzTraverseGo cb bdRead (index + 1) head index acc

theorem lfsCtzTraverseGo_eq (fuel : ℕ) (head : Block) (index : ℕ) (acc : α) :
    lfsCtzTraverseGo cb fuel head index acc = ctzTraverseGo cb readBytes fuel head index acc := by
  induction fuel generalizing head index acc with
  | zero => rfl
  | succ fuel ih =>
      rw [lfsCtzTraverseGo, ctzTraverseGo]
      congr 1
      funext acc
      by_cases hzero : index = 0
      · rw [if_pos hzero, if_pos hzero]
      · rw [if_neg hzero, if_neg hzero]
        by_cases hodd : index % 2 = 1
        · simp only [hodd, if_pos, readBytes, bind_assoc, pure_bind, ih]
          congr 1
        · have heven : index % 2 = 0 := by omega
          simp only [heven, if_neg (show ¬(0 = 1) by omega), readBytes, bind_assoc, pure_bind, ih]
          congr 1
          funext image
          simp [readWord_slice_at]

/-- Without caches the walk is the one over the device. -/
theorem lfsCtzTraverse_eq (head : Block) (size : ℕ) (acc : α) :
    lfsCtzTraverse cb head size acc = ctzTraverse cb readBytes head size acc := by
  simp only [lfsCtzTraverse, ctzTraverse, lfsCtzTraverseGo_eq]

end

/-- Block `index` of the list whose last block is `last`, at the address `head`. -/
def ctzBlock (bytes : Block → Bytes) (head : Block) (last index : ℕ) : Block :=
  (fun block => readWord (bytes block) 0)^[last - index] head

/-- The blocks of a list with `size` bytes of data, from the last one down. -/
def ctzBlocks (bytes : Block → Bytes) (blockSize : ℕ) (head : Block) (size : ℕ) : List Block :=
  if size = 0 then []
  else
    let last := (lfsCtzIndex blockSize (size - 1)).1
    (List.range (last + 1)).reverse.map (ctzBlock bytes head last)

/-- The list with `size` bytes of data behind `head` is well formed, as read with `pcache`. -/
structure Lfs.CtzIntact (lfs : Lfs) (pcache : Option LfsCache) (head : Block) (size : ℕ) :
    Prop where
  size_lt : size < 2 ^ 32
  list : CtzList (lfs.bytesThrough pcache)
    (ctzBlock (lfs.bytesThrough pcache) head (lfsCtzIndex lfs.cfg.blockSize (size - 1)).1)
    (lfsCtzIndex lfs.cfg.blockSize (size - 1)).1
  device : ∀ block ∈ ctzBlocks (lfs.bytesThrough pcache) lfs.cfg.blockSize head size,
    OnDevice lfs block

/-- The blocks of a walk from block `index` down. -/
theorem reverse_range_succ (blocks : ℕ → Block) (index : ℕ) :
    (List.range (index + 1)).reverse.map blocks =
      blocks index :: (List.range index).reverse.map blocks := by
  rw [List.range_succ, List.reverse_append, List.map_append]
  rfl

section

variable {α : Type} {step : α → Block → Except Error α} {bdRead : BdRead FsM}
  {bytes : Block → Bytes} {blocks : ℕ → Block} {last index fuel : ℕ}

/-- Reads find `bytes` on the blocks of the device. -/
def Finds (base : Lfs) (bdRead : BdRead FsM) (bytes : Block → Bytes) : Prop :=
  ∀ hint block off size, OnDevice base block → off + size ≤ base.cfg.blockSize →
    Delivers base (bdRead hint block off size) (slice (bytes block) off size)

theorem calls_ctzTraverseGo (hfinds : Finds base bdRead bytes) (hblock : 8 ≤ base.cfg.blockSize)
    (hlist : CtzList bytes blocks last) (hdevice : ∀ i ≤ last, OnDevice base (blocks i))
    (hlast : index ≤ last) (hword : index < 2 ^ 32) (hfuel : index < fuel) :
    Calls step base (ctzTraverseGo (callback step) bdRead fuel (blocks index) index)
      ((List.range (index + 1)).reverse.map blocks) := by
  induction fuel generalizing index with
  | zero => omega
  | succ fuel ih =>
      simp only [ctzTraverseGo]
      rw [reverse_range_succ]
      apply Calls.bind (Calls.one (blocks index))
      by_cases hzero : index = 0
      · simp only [hzero]
        exact Calls.pure
      · simp only [if_neg hzero]
        have hread := hfinds (4 * (2 - index % 2)) (blocks index) 0 (4 * (2 - index % 2))
          (hdevice index hlast) (by omega)
        apply Calls.read_bind hread
        have hfirst : readWord (slice (bytes (blocks index)) 0 (4 * (2 - index % 2))) 0 =
            blocks (index - 1) := by
          rw [readWord_slice_at (by omega)]
          exact hlist.pointer index hlast (by omega) 0 (Nat.zero_le _)
        by_cases hodd : index % 2 = 1
        · rw [hodd] at hfirst ⊢
          simp only [Nat.reduceSub, Nat.mul_one, Nat.mul_zero, List.range_zero, List.foldlM_nil,
            pure_bind]
          rw [show 4 * (2 - 1) = 4 from rfl] at hfirst
          rw [hfirst]
          have hrest : Calls step base
              (ctzTraverseGo (callback step) bdRead fuel (blocks (index - 1)) (index - 1))
              ((List.range (index - 1 + 1)).reverse.map blocks) :=
            ih (by omega) (by omega) (by omega)
          rwa [show index - 1 + 1 = index by omega] at hrest
        · have heven : index % 2 = 0 := by omega
          rw [heven] at hfirst ⊢
          have hsecond : readWord (slice (bytes (blocks index)) 0 (4 * (2 - 0))) 4 =
              blocks (index - 2) := by
            rw [readWord_slice_at (by omega)]
            apply hlist.pointer index hlast (by omega) 1
            rw [lfsCtz_eq (by omega) hword, ← two_pow_dvd_iff (by omega), pow_one]
            exact Nat.dvd_of_mod_eq_zero heven
          simp only [Nat.reduceSub, Nat.mul_one, List.range_one, List.foldlM_cons, List.foldlM_nil,
            bind_pure, Nat.mul_zero, hfirst]
          have hrest : Calls step base
              (ctzTraverseGo (callback step) bdRead fuel (blocks (index - 2)) (index - 2))
              ((List.range (index - 2 + 1)).reverse.map blocks) :=
            ih (by omega) (by omega) (by omega)
          have hblocks : (List.range index).reverse.map blocks =
              blocks (index - 1) :: (List.range (index - 2 + 1)).reverse.map blocks := by
            rw [show index - 2 + 1 = index - 1 by omega, ← reverse_range_succ,
              show index - 1 + 1 = index by omega]
          rw [hblocks]
          apply Calls.bind (Calls.one (blocks (index - 1)))
          rw [← hsecond] at hrest
          exact hrest

theorem ctzBlock_last (bytes : Block → Bytes) (head : Block) (last : ℕ) :
    ctzBlock bytes head last last = head := by
  rw [ctzBlock, Nat.sub_self]
  rfl

/-- The blocks of a well-formed list are visited from the last one down, each once. -/
theorem calls_ctzTraverse {pcache : Option LfsCache} {head : Block} {size : ℕ}
    (hfinds : Finds base bdRead (base.bytesThrough pcache)) (hblock : 128 ≤ base.cfg.blockSize)
    (hintact : base.CtzIntact pcache head size) :
    Calls step base (ctzTraverse (callback step) bdRead head size)
      (ctzBlocks (base.bytesThrough pcache) base.cfg.blockSize head size) := by
  obtain ⟨hsize, hlist, hdevice⟩ := hintact
  intro acc lfs hreads
  by_cases hzero : size = 0
  · rw [ctzTraverse, if_pos hzero, ctzBlocks, if_pos hzero]
    exact ⟨hreads, rfl⟩
  · obtain ⟨index, off, hat⟩ := exists_ctzAt hblock (show size - 1 < 2 ^ 32 by omega)
    have hword : index < 2 ^ 32 := lt_trans hat.index_lt (by norm_num [ctzLayout, ctzCount])
    have hcfg : lfs.cfg = base.cfg := by rw [hreads.eq]
    rw [ctzTraverse, if_neg hzero, outcome_bind, outcome_get, hcfg]
    rw [ctzBlocks, if_neg hzero] at hdevice ⊢
    rw [lfsCtzIndex_eq hat (by omega)] at hlist hdevice ⊢
    dsimp only at hlist hdevice ⊢
    have hcalls : Calls step base (ctzTraverseGo (callback step) bdRead (index + 1)
        (ctzBlock (base.bytesThrough pcache) head index index) index)
        ((List.range (index + 1)).reverse.map
            (ctzBlock (base.bytesThrough pcache) head index)) := by
      apply calls_ctzTraverseGo hfinds (by omega) hlist _ (le_refl index) hword (Nat.lt_succ_self _)
      intro i hi
      apply hdevice
      rw [List.mem_map]
      exact ⟨i, by rw [List.mem_reverse, List.mem_range]; omega, rfl⟩
    rw [ctzBlock_last] at hcalls
    exact hcalls acc lfs hreads

end

end Littlefs
