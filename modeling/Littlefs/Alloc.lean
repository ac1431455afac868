import Littlefs.Ctz

/-!
# Walking the filesystem and allocating blocks

`lfs_fs_traverse_` hands every block in use to a callback: the pairs on the tail
list with the files and directories they name, and the blocks of open files
that are not committed yet.  The allocator marks those blocks in a window of
`lookahead` bits and gives out the unmarked ones in order.
-/

namespace Littlefs

/-! ## Tail walks -/

/-- `LfsTortoise`. -/
structure Tortoise where
  pair : Pair := (blockNull, blockNull)
  i : ℕ := 1
  period : ℕ := 1
  deriving DecidableEq, Repr

/-- `lfs_tortoise_detectcycles`, on 32-bit words: `none` when the tail has met the
tortoise. -/
def lfsTortoiseDetectcycles (tail : Pair) (tortoise : Tortoise) : Option Tortoise :=
  if lfsPairIssync tail tortoise.pair then
    none
  else if tortoise.i = tortoise.period then
    some { pair := tail, i := 1, period := tortoise.period * 2 % 2 ^ 32 }
  else
    some { tortoise with i := (tortoise.i + 1) % 2 ^ 32 }

/-- Enough iterations for any walk over the pairs of a device of `blockCount` blocks. -/
def walkFuel (blockCount : ℕ) : ℕ := 4 * (blockCount + 2) ^ 2

def tailFuel (lfs : Lfs) : ℕ := walkFuel lfs.blockCount

section

variable {α : Type} (cb : α → Block → FsM α) (includeorphans : Bool)

/-- The blocks behind one entry of `dir`. -/
def traverseEntry (dir : Mdir) (acc : α) (id : ℕ) : FsM α := do
  match ← tryError (lfsDirGet dir ⟨0x700, true⟩ ⟨tyStruct, id, 8⟩) with
  | .error .noEntry => return acc
  | .error e => failWith e
  | .ok (tag, data) =>
      let raw := data.toPair
      if tag.type3 = tyCtzstruct then
        lfsCtzTraverse cb raw.1 raw.2 acc
      else if includeorphans ∧ tag.type3 = tyDirstruct then
        let acc ← cb acc raw.1
        cb acc raw.2
      else
        return acc

def traverseTails : ℕ → Pair → Tortoise → α → FsM α
  | 0, _, _, _ => throw .outOfFuel
  | fuel + 1, tail, tortoise, acc =>
      if lfsPairIsnull tail then
        return acc
      else
        match lfsTortoiseDetectcycles tail tortoise with
        | none => failWith .corrupt
        | some tortoise => do
            let acc ← cb acc tail.1
            let acc ← cb acc tail.2
            let dir ← lfsDirFetch tail
            let acc ← (List.range dir.count).foldlM (traverseEntry cb includeorphans dir) acc
            traverseTails fuel dir.tail tortoise acc

/-- The blocks of an open file that its struct on disk does not name. -/
def traverseFile (acc : α) (file : Handle) : FsM α := do
  if file.type ≠ .reg then
    return acc
  let acc ←
    if file.flags.dirty ∧ ¬file.flags.inline then
      lfsCtzTraverse cb file.ctz.head file.ctz.size acc
    else pure acc
  if file.flags.writing ∧ ¬file.flags.inline then
    lfsCtzTraverse cb file.block file.pos acc
  else
    return acc

/-- `lfs_fs_traverse_`. -/
def lfsFsTraverse (acc : α) : FsM α := do
  let lfs ← get
  let acc ← traverseTails cb includeorphans (tailFuel lfs) (0, 1) {} acc
  lfs.mlist.foldlM (traverseFile cb) acc

end

/-- `lfs_fs_size_`: blocks are counted as often as they are visited. -/
def lfsFsSize : FsM ℕ := lfsFsTraverse (fun size _ => return size + 1) false 0

/-! ## The lookahead window -/

/-- `wrapping_sub(1)` on 32 bits. -/
def wrappingPred (n : ℕ) : ℕ := if n = 0 then 2 ^ 32 - 1 else n - 1

namespace Lookahead

def advance (window : Lookahead) : Lookahead :=
  { window with next := window.next + 1, ckpoint := wrappingPred window.ckpoint }

/-- Step over the marked bits, at most `fuel` of them. -/
def skip : ℕ → Lookahead → Lookahead
  | 0, window => window
  | fuel + 1, window =>
      if window.next < window.size ∧ window.buffer window.next then
        skip fuel window.advance
      else
        window

/-- The block that bit `i` stands for, on 32-bit words. -/
def blockAt (window : Lookahead) (blockCount i : ℕ) : Block :=
  (window.start + i) % 2 ^ 32 % blockCount

/-- `lfs_alloc_lookahead`: the bit of `block`, on 32-bit words. -/
def offsetOf (window : Lookahead) (blockCount : ℕ) (block : Block) : ℕ :=
  ((block + 2 ^ 32 - window.start) % 2 ^ 32 + blockCount) % 2 ^ 32 % blockCount

def mark (window : Lookahead) (blockCount : ℕ) (block : Block) : Lookahead :=
  let off := window.offsetOf blockCount block
  if off < window.size then
    { window with buffer := Function.update window.buffer off true }
  else
    window

/-- `lfs_alloc_ckpoint`. -/
def checkpoint (window : Lookahead) (blockCount : ℕ) : Lookahead :=
  { window with ckpoint := blockCount }

/-- `lfs_alloc_drop`. -/
def drop (window : Lookahead) (blockCount : ℕ) : Lookahead :=
  { window with size := 0, next := 0, ckpoint := blockCount }

/-- `8 * lookahead_buffer.len() as u32`. -/
def lookaheadBits (lookaheadSize : ℕ) : ℕ := 8 * lookaheadSize % 2 ^ 32

/-- The window of `lfs_alloc_scan` before the blocks in use are marked. -/
def moved (window : Lookahead) (blockCount lookaheadSize : ℕ) : Lookahead :=
  { start := window.blockAt blockCount window.next
    size := min (lookaheadBits lookaheadSize) window.ckpoint
    next := 0
    ckpoint := window.ckpoint
    buffer := fun _ => false }

end Lookahead

def setLookahead (window : Lookahead) : FsM Unit :=
  modify fun lfs => { lfs with lookahead := window }

/-- `lfs_alloc_ckpoint`. -/
def lfsAllocCkpoint : FsM Unit :=
  modify fun lfs => { lfs with lookahead := lfs.lookahead.checkpoint lfs.blockCount }

/-- `lfs_alloc_drop`. -/
def lfsAllocDrop : FsM Unit :=
  modify fun lfs => { lfs with lookahead := lfs.lookahead.drop lfs.blockCount }

/-- `lfs_alloc_lookahead`. -/
def lfsAllocLookahead (block : Block) : FsM Unit :=
  modify fun lfs => { lfs with lookahead := lfs.lookahead.mark lfs.blockCount block }

/-- `lfs_alloc_scan`. -/
def lfsAllocScan : FsM Unit := do
  let lfs ← get
  setLookahead (lfs.lookahead.moved lfs.blockCount lfs.cfg.lookaheadSize)
  match ← tryError (lfsFsTraverse (fun _ block => lfsAllocLookahead block) true ()) with
  | .ok _ => return ()
  | .error e =>
      lfsAllocDrop
      failWith e

/-- The outer loop of `lfs_alloc`: each turn uses up the window, then scans for
the next one. -/
def lfsAllocGo : ℕ → FsM Block
  | 0 => throw .outOfFuel
  | fuel + 1 => do
      let lfs ← get
      let window := lfs.lookahead.skip (lfs.lookahead.size - lfs.lookahead.next)
      if window.next < window.size then
        -- eagerly find the next free block, so that a checkpoint frees as many as it can
        setLookahead (window.advance.skip (window.size - window.next))
        return window.blockAt lfs.blockCount window.next
      else if window.ckpoint = 0 then
        setLookahead window
        failWith .noSpace
      else
        setLookahead window
        lfsAllocScan
        lfsAllocGo fuel

/-- Enough turns for a loop that takes a block from the window each time. -/
def retryFuel : ℕ := 2 ^ 32 + 2

/-- `lfs_alloc`. -/
def lfsAlloc : FsM Block := lfsAllocGo retryFuel

end Littlefs
