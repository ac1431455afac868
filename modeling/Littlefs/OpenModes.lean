import Littlefs.ByteFile
import Littlefs.Serving

/-!
# The bytes an open file stands for

The data of an open file are in its cache, on the list that its struct names, or on a list
that is being written.  While it is being written the old list still holds what is behind
the position, and a flush copies it.
-/

namespace Littlefs

open Program SkipLists

variable {lfs lfs' : Lfs} {committed others old : List Block} {file : Handle} {data : Bytes}
  {blocks : ℕ → Block}

/-- The data of `file` are in its cache. -/
structure InlineFile (lfs : Lfs) (file : Handle) (data : Bytes) : Prop where
  inline : file.flags.inline = true
  length_eq : data.length = file.length
  length_le : data.length ≤ lfs.inlineMax
  byte : ∀ p < data.length, file.cache.getD p 0 = data.getD p 0
  reading : file.flags.reading = true → file.pos < data.length → file.off = file.pos
  writing : file.flags.writing = true → file.off = file.pos ∧ file.block = blockInline
  started : file.flags.writing = true → 0 < file.pos
  apart : file.flags.reading = true → file.flags.writing = false
  head_eq : file.ctz.head = blockInline

/-- A file that is being read stands in the block of its position. -/
structure ReadsAt (lfs : Lfs) (file : Handle) (blocks : ℕ → Block) : Prop where
  block_eq : file.flags.reading = true → file.off ≠ lfs.cfg.blockSize →
    ∀ p < file.ctz.size,
      (lfsCtzIndex lfs.cfg.blockSize p).1 = (lfsCtzIndex lfs.cfg.blockSize file.pos).1 →
        file.block = blocks (lfsCtzIndex lfs.cfg.blockSize p).1
  off_eq : file.flags.reading = true → file.off ≠ lfs.cfg.blockSize →
    file.pos < file.ctz.size → file.off = (lfsCtzIndex lfs.cfg.blockSize file.pos).2

/-- The list that the struct of a file names: it is committed, or a traversal finds it as `old`,
and it has the bytes from `start` on. -/
structure Backing (lfs : Lfs) (committed : List Block) (dirty : Bool) (ctz : Ctz) (start : ℕ)
    (data : Bytes) (old : List Block) : Prop where
  traverses : dirty = true → Traverses lfs ctz.head ctz.size old
  clean : dirty = false → old = []
  list : start < ctz.size → ∃ blocks, FileList lfs ctz.head ctz.size blocks ∧
    listedBlocks lfs.cfg.blockSize ctz.size blocks ⊆ committed ++ old ∧
    ∀ p, start ≤ p → p < ctz.size → lfs.byteAt blocks p = data.getD p 0

/-- The data of `file` are on the list that its struct names. -/
structure ListedFile (lfs : Lfs) (committed : List Block) (file : Handle) (data : Bytes)
    (old : List Block) (blocks : ℕ → Block) : Prop where
  inline : file.flags.inline = false
  idle : file.flags.writing = false
  length_eq : data.length = file.ctz.size
  list : FileList lfs file.ctz.head file.ctz.size blocks
  covered : listedBlocks lfs.cfg.blockSize file.ctz.size blocks ⊆ committed ++ old
  byte : ∀ p < file.ctz.size, lfs.byteAt blocks p = data.getD p 0
  traverses : file.flags.dirty = true → Traverses lfs file.ctz.head file.ctz.size old
  clean : file.flags.dirty = false → old = []
  reads : ReadsAt lfs file blocks

/-- The data of `file` up to its position are on a list for `size` bytes that ends in a block of
its own; those from `stop` on are where they were, and what is between is to be written. -/
structure Growing (lfs : Lfs) (committed others : List Block) (file : Handle) (data : Bytes)
    (old : List Block) (blocks : ℕ → Block) (stop size : ℕ) : Prop where
  inline : file.flags.inline = false
  writing : file.flags.writing = true
  unread : file.flags.reading = false
  length_eq : data.length = max stop file.ctz.size
  backing : Backing lfs committed file.flags.dirty file.ctz stop data old
  list : FileList lfs file.block size blocks
  byte : ∀ p < file.pos, lfs.byteAt blocks p = data.getD p 0
  free : file.block ∉ others ++ old
  distinct : ∀ i < lastIndex lfs.cfg.blockSize size, blocks i ≠ file.block

/-- The last block is written up to the offset. -/
structure WritingFile (lfs : Lfs) (committed others : List Block) (file : Handle) (data : Bytes)
    (old : List Block) (blocks : ℕ → Block) (stop : ℕ) : Prop
    extends Growing lfs committed others file data old blocks stop file.pos where
  off_eq : file.off = (lfsCtzIndex lfs.cfg.blockSize (file.pos - 1)).2 + 1
  good : lfs.progBad file.block = false

/-- The last block has a place for the next byte. -/
structure ReadyFile (lfs : Lfs) (committed others : List Block) (file : Handle) (data : Bytes)
    (old : List Block) (blocks : ℕ → Block) (stop : ℕ) : Prop
    extends Growing lfs committed others file data old blocks stop (file.pos + 1) where
  off_eq : file.off = (lfsCtzIndex lfs.cfg.blockSize file.pos).2
  good : 0 < file.pos → lfs.progBad file.block = false

/-- The data of `file`, with the blocks it has not committed. -/
inductive FileMode (lfs : Lfs) (committed others : List Block) (file : Handle) (data : Bytes) :
    List Block → Prop
  | inline (hfile : InlineFile lfs file data) : FileMode lfs committed others file data []
  | listed {old : List Block} {blocks : ℕ → Block}
      (hfile : ListedFile lfs committed file data old blocks) :
      FileMode lfs committed others file data old
  | writing {old : List Block} {blocks : ℕ → Block}
      (hfile : WritingFile lfs committed others file data old blocks file.pos) :
      FileMode lfs committed others file data
        (old ++ listedBlocks lfs.cfg.blockSize file.pos blocks)

/-- `file` stands for `array`, and `own` are the blocks that it has not committed. -/
structure Represents (lfs : Lfs) (committed others : List Block) (file : Handle)
    (array : ByteFile) (own : List Block) : Prop where
  type_eq : file.type = .reg
  append_eq : file.flags.append = array.append
  pos_eq : file.pos = array.pos
  pos_le : file.pos ≤ lfs.fileMax
  length_le : array.data.length ≤ lfs.fileMax
  appending : file.flags.append = true → file.flags.writing = true → file.ctz.size ≤ file.pos
  mode : FileMode lfs committed others file array.data own

/-! ## Frames -/

theorem SameFs.inlineMax (hsame : SameFs lfs lfs') : lfs'.inlineMax = lfs.inlineMax := by
  have heq := hsame.eq
  rw [heq]

theorem SameFs.fileMax (hsame : SameFs lfs lfs') : lfs'.fileMax = lfs.fileMax := by
  have heq := hsame.eq
  rw [heq]

theorem SameFs.progBad (hsame : SameFs lfs lfs') : lfs'.progBad = lfs.progBad := by
  have heq := hsame.eq
  rw [heq]

theorem InlineFile.frame (hfile : InlineFile lfs file data) (hsame : SameFs lfs lfs') :
    InlineFile lfs' file data :=
  { hfile with length_le := hsame.inlineMax ▸ hfile.length_le }

theorem Backing.frame (hblock : 128 ≤ lfs.cfg.blockSize) {dirty : Bool} {ctz : Ctz} {start : ℕ}
    (hbacking : Backing lfs committed dirty ctz start data old) (hsame : SameFs lfs lfs')
    (hagree : AgreeOn (committed ++ old) lfs.disk lfs'.disk) :
    Backing lfs' committed dirty ctz start data old where
  traverses hdirty := (hbacking.traverses hdirty).frame hsame
    (hagree.mono (List.subset_append_right _ _))
  clean := hbacking.clean
  list hstart := by
    obtain ⟨blocks, hlist, hcovered, hbyte⟩ := hbacking.list hstart
    have hagree' := hagree.mono hcovered
    refine ⟨blocks, hlist.frame hsame hagree', ?_, ?_⟩
    · rw [hsame.cfg]
      exact hcovered
    · intro p hp hlt
      rw [hlist.byteAt_frame hblock hsame hagree' hlt]
      exact hbyte p hp hlt

theorem ReadsAt.frame (hreads : ReadsAt lfs file blocks) (hsame : SameFs lfs lfs') :
    ReadsAt lfs' file blocks where
  block_eq := by
    rw [hsame.cfg]
    exact hreads.block_eq
  off_eq := by
    rw [hsame.cfg]
    exact hreads.off_eq

theorem ListedFile.frame (hblock : 128 ≤ lfs.cfg.blockSize)
    (hfile : ListedFile lfs committed file data old blocks) (hsame : SameFs lfs lfs')
    (hagree : AgreeOn (committed ++ old) lfs.disk lfs'.disk) :
    ListedFile lfs' committed file data old blocks :=
  { hfile with
    list := hfile.list.frame hsame (hagree.mono hfile.covered)
    covered := by
      rw [hsame.cfg]
      exact hfile.covered
    byte := by
      intro p hp
      rw [hfile.list.byteAt_frame hblock hsame (hagree.mono hfile.covered) hp]
      exact hfile.byte p hp
    traverses := fun hdirty => (hfile.traverses hdirty).frame hsame
      (hagree.mono (List.subset_append_right _ _))
    reads := hfile.reads.frame hsame }

theorem Growing.frame (hblock : 128 ≤ lfs.cfg.blockSize) {others' : List Block} {stop size : ℕ}
    (hfile : Growing lfs committed others file data old blocks stop size)
    (hle : file.pos ≤ size) (hsame : SameFs lfs lfs')
    (hagree : AgreeOn (committed ++ (old ++ listedBlocks lfs.cfg.blockSize size blocks))
      lfs.disk lfs'.disk)
    (hfree : file.block ∉ others') :
    Growing lfs' committed others' file data old blocks stop size :=
  have hold : committed ++ old ⊆
      committed ++ (old ++ listedBlocks lfs.cfg.blockSize size blocks) := by
    rw [← List.append_assoc]
    exact List.subset_append_left _ _
  have hnew := hagree.mono (List.Subset.trans (List.subset_append_right old _)
    (List.subset_append_right committed _))
  { hfile with
    backing := hfile.backing.frame hblock hsame (hagree.mono hold)
    list := hfile.list.frame hsame hnew
    byte := by
      intro p hp
      rw [hfile.list.byteAt_frame hblock hsame hnew (by omega)]
      exact hfile.byte p hp
    free := by
      intro hmem
      apply (List.mem_append.mp hmem).elim hfree
      exact fun hmem => hfile.free (List.mem_append_right _ hmem)
    distinct := by
      rw [hsame.cfg]
      exact hfile.distinct }

theorem WritingFile.frame (hblock : 128 ≤ lfs.cfg.blockSize) {others' : List Block} {stop : ℕ}
    (hfile : WritingFile lfs committed others file data old blocks stop) (hsame : SameFs lfs lfs')
    (hagree : AgreeOn (committed ++ (old ++ listedBlocks lfs.cfg.blockSize file.pos blocks))
      lfs.disk lfs'.disk)
    (hfree : file.block ∉ others') :
    WritingFile lfs' committed others' file data old blocks stop where
  toGrowing := hfile.toGrowing.frame hblock (le_refl _) hsame hagree hfree
  off_eq := by
    rw [hsame.cfg]
    exact hfile.off_eq
  good := by
    rw [hsame.progBad]
    exact hfile.good

/-- Nothing but the handles, the window or the script changes. -/
theorem ReadyFile.frame (hblock : 128 ≤ lfs.cfg.blockSize) {stop : ℕ}
    (hfile : ReadyFile lfs committed others file data old blocks stop) (hsame : SameFs lfs lfs')
    (hdisk : lfs'.disk = lfs.disk) :
    ReadyFile lfs' committed others file data old blocks stop where
  toGrowing := hfile.toGrowing.frame hblock (Nat.le_succ _) hsame
    (fun _ _ => by rw [hdisk]) fun h => hfile.free (List.mem_append_left _ h)
  off_eq := by
    rw [hsame.cfg]
    exact hfile.off_eq
  good := by
    rw [hsame.progBad]
    exact hfile.good

theorem WritingFile.block_mem {stop : ℕ}
    (hfile : WritingFile lfs committed others file data old blocks stop) :
    file.block ∈ old ++ listedBlocks lfs.cfg.blockSize file.pos blocks :=
  List.mem_append_right _ (mem_listedBlocks.mpr ⟨_, le_refl _, hfile.list.head_eq⟩)

/-- Writing to other blocks leaves the file as it is. -/
theorem FileMode.frame (hblock : 128 ≤ lfs.cfg.blockSize) {own others' : List Block}
    (hmode : FileMode lfs committed others file data own) (hsame : SameFs lfs lfs')
    (hagree : AgreeOn (committed ++ own) lfs.disk lfs'.disk)
    (hfree : ∀ block ∈ own, OnDevice lfs block → block ∉ others → block ∉ others') :
    FileMode lfs' committed others' file data own := by
  cases hmode with
  | inline hfile => exact .inline (hfile.frame hsame)
  | listed hfile => exact .listed (hfile.frame hblock hsame hagree)
  | writing hfile =>
      rw [← hsame.cfg]
      apply FileMode.writing
      apply hfile.frame hblock hsame hagree
      have hdevice : OnDevice lfs file.block := by
        have hlast := hfile.list.device _ (le_refl _)
        rw [hfile.list.head_eq] at hlast
        exact hlast
      exact hfree _ hfile.block_mem hdevice fun hmem => hfile.free (List.mem_append_left _ hmem)

theorem Represents.frame (hblock : 128 ≤ lfs.cfg.blockSize) {own others' : List Block}
    {array : ByteFile} (hfile : Represents lfs committed others file array own)
    (hsame : SameFs lfs lfs') (hagree : AgreeOn (committed ++ own) lfs.disk lfs'.disk)
    (hfree : ∀ block ∈ own, OnDevice lfs block → block ∉ others → block ∉ others') :
    Represents lfs' committed others' file array own :=
  { hfile with
    pos_le := hsame.fileMax ▸ hfile.pos_le
    length_le := hsame.fileMax ▸ hfile.length_le
    mode := hfile.mode.frame hblock hsame hagree hfree }

/-! ## Blocks and lengths -/

/-- A traversal reports the blocks that the file has not committed. -/
theorem FileMode.pends (hblock : 128 ≤ lfs.cfg.blockSize) {own : List Block}
    (hmode : FileMode lfs committed others file data own) (htype : file.type = .reg) :
    Pends lfs file own := by
  cases hmode with
  | inline hfile => exact pends_inline hfile.inline
  | listed hfile =>
      have hpends : Pends lfs file (own ++ []) :=
        pends_of_traverses htype hfile.inline hfile.traverses hfile.clean
          (fun hwriting => absurd hwriting (by simp [hfile.idle])) fun _ => rfl
      rwa [List.append_nil] at hpends
  | writing hfile =>
      exact pends_of_traverses htype hfile.inline hfile.backing.traverses hfile.backing.clean
        (fun _ => hfile.list.traverses hblock) fun hidle => absurd hidle (by simp [hfile.writing])

/-- The length of a file is that of its data. -/
theorem FileMode.length_eq {own : List Block}
    (hmode : FileMode lfs committed others file data own) : data.length = file.length := by
  cases hmode with
  | inline hfile => exact hfile.length_eq
  | listed hfile =>
      rw [Handle.length, if_neg (by simp [hfile.idle])]
      exact hfile.length_eq
  | writing hfile =>
      rw [Handle.length, if_pos hfile.writing]
      exact hfile.length_eq

theorem Backing.mono {dirty : Bool} {ctz : Ctz} {start start' : ℕ} {data' : Bytes}
    (hbacking : Backing lfs committed dirty ctz start data old) (hle : start ≤ start')
    (hdata : ∀ p, start' ≤ p → p < ctz.size → data'.getD p 0 = data.getD p 0) :
    Backing lfs committed dirty ctz start' data' old where
  traverses := hbacking.traverses
  clean := hbacking.clean
  list hlt := by
    obtain ⟨blocks, hlist, hcovered, hbyte⟩ := hbacking.list (by omega)
    refine ⟨blocks, hlist, hcovered, fun p hp hsize => ?_⟩
    rw [hdata p hp hsize]
    exact hbyte p (by omega) hsize

theorem ListedFile.backing (hfile : ListedFile lfs committed file data old blocks) (start : ℕ) :
    Backing lfs committed file.flags.dirty file.ctz start data old where
  traverses := hfile.traverses
  clean := hfile.clean
  list _ := ⟨blocks, hfile.list, hfile.covered, fun p _ hlt => hfile.byte p hlt⟩

end Littlefs
