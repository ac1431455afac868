import Littlefs.OpenFiles
import Littlefs.CtzExtend

/-!
# The block list of a file

Where the bytes of a file lie on its blocks, how `lfs_ctz_find` gets there and what a
traversal hands to its callback.
-/

namespace Littlefs

open Program SkipLists

/-! ## Places -/

section

variable {blockSize pos k : ℕ}

theorem lfsCtzIndex_lt (hblock : 128 ≤ blockSize) (hpos : pos < 2 ^ 32) :
    (lfsCtzIndex blockSize pos).2 < blockSize := by
  obtain ⟨index, off, hat⟩ := exists_ctzAt hblock hpos
  rw [lfsCtzIndex_eq hat hpos]
  exact hat.off_lt

/-- The positions behind one another, as far as a block reaches. -/
theorem lfsCtzIndex_add (pos k : ℕ) (hblock : 128 ≤ blockSize) (hpos : pos + k < 2 ^ 32)
    (hroom : (lfsCtzIndex blockSize pos).2 + k < blockSize) :
    lfsCtzIndex blockSize (pos + k) =
      ((lfsCtzIndex blockSize pos).1, (lfsCtzIndex blockSize pos).2 + k) := by
  obtain ⟨index, off, hat⟩ := exists_ctzAt hblock (show pos < 2 ^ 32 by omega)
  rw [lfsCtzIndex_eq hat (by omega)] at hroom ⊢
  have hle := hat.le_off
  have heq := hat.eq
  have hlater : (ctzLayout blockSize hblock).At (pos + k) index (off + k) :=
    { index_lt := hat.index_lt
      le_off := hle.trans (Nat.le_add_right _ _)
      off_lt := hroom
      eq := by omega }
  exact lfsCtzIndex_eq hlater hpos

theorem lfsCtzIndex_mono (hblock : 128 ≤ blockSize) {pos' : ℕ} (hle : pos ≤ pos')
    (hpos' : pos' < 2 ^ 32) : (lfsCtzIndex blockSize pos).1 ≤ (lfsCtzIndex blockSize pos').1 := by
  obtain ⟨index, off, hat⟩ := exists_ctzAt hblock (show pos < 2 ^ 32 by omega)
  obtain ⟨index', off', hat'⟩ := exists_ctzAt hblock hpos'
  rw [lfsCtzIndex_eq hat (by omega), lfsCtzIndex_eq hat' hpos']
  exact hat.index_mono hat' hle

/-- In one block the offsets go with the positions. -/
theorem lfsCtzIndex_off (hblock : 128 ≤ blockSize) {pos' : ℕ} (hle : pos ≤ pos')
    (hpos' : pos' < 2 ^ 32)
    (hindex : (lfsCtzIndex blockSize pos).1 = (lfsCtzIndex blockSize pos').1) :
    (lfsCtzIndex blockSize pos').2 = (lfsCtzIndex blockSize pos).2 + (pos' - pos) := by
  obtain ⟨index, off, hat⟩ := exists_ctzAt hblock (show pos < 2 ^ 32 by omega)
  obtain ⟨index', off', hat'⟩ := exists_ctzAt hblock hpos'
  rw [lfsCtzIndex_eq hat (by omega), lfsCtzIndex_eq hat' hpos'] at hindex ⊢
  dsimp only at hindex ⊢
  subst hindex
  have heq := hat.eq
  have heq' := hat'.eq
  omega

/-- The pointers of a block come before its data. -/
theorem pointers_le_lfsCtzIndex (pos : ℕ) (hblock : 128 ≤ blockSize) (hpos : pos < 2 ^ 32) :
    4 * pointers (lfsCtzIndex blockSize pos).1 ≤ (lfsCtzIndex blockSize pos).2 := by
  obtain ⟨index, off, hat⟩ := exists_ctzAt hblock hpos
  rw [lfsCtzIndex_eq hat hpos]
  exact hat.le_off

/-- A position in the first block. -/
theorem lfsCtzIndex_first (hblock : 128 ≤ blockSize) (hpos : pos < blockSize)
    (hword : pos < 2 ^ 32) : lfsCtzIndex blockSize pos = (0, pos) := by
  have hzero := lfsCtzIndex_zero hblock
  have hadd := lfsCtzIndex_add 0 pos hblock (by omega) (by
    rw [hzero]
    simpa using hpos)
  rw [hzero, Nat.zero_add] at hadd
  simpa using hadd

end

/-! ## Lists -/

/-- The index of the last block of a list with `size` bytes. -/
def lastIndex (blockSize size : ℕ) : ℕ := (lfsCtzIndex blockSize (size - 1)).1

/-- The blocks of a list with `size` bytes, from the last one down. -/
def listedBlocks (blockSize size : ℕ) (blocks : ℕ → Block) : List Block :=
  (List.range (lastIndex blockSize size + 1)).reverse.map blocks

theorem mem_listedBlocks {blockSize size : ℕ} {blocks : ℕ → Block} {block : Block} :
    block ∈ listedBlocks blockSize size blocks ↔
      ∃ i ≤ lastIndex blockSize size, blocks i = block := by
  simp only [listedBlocks, List.mem_map, List.mem_reverse, List.mem_range, Nat.lt_succ_iff]

/-- The list of a file with `size` bytes ends at `head`; block `i` has the address `blocks i`. -/
structure FileList (lfs : Lfs) (head : Block) (size : ℕ) (blocks : ℕ → Block) : Prop where
  pos : 0 < size
  lt : size < 2 ^ 32
  head_eq : blocks (lastIndex lfs.cfg.blockSize size) = head
  list : CtzList (diskBytes lfs.disk) blocks (lastIndex lfs.cfg.blockSize size)
  device : ∀ i ≤ lastIndex lfs.cfg.blockSize size, OnDevice lfs (blocks i)

/-- The byte at `pos` of the list. -/
def Lfs.byteAt (lfs : Lfs) (blocks : ℕ → Block) (pos : ℕ) : ℕ :=
  ctzByte lfs.cfg.blockSize (diskBytes lfs.disk) blocks pos

theorem SameFs.cfg {lfs lfs' : Lfs} (hsame : SameFs lfs lfs') : lfs'.cfg = lfs.cfg := by
  have heq := hsame.eq
  rw [heq]

theorem SameFs.blockCount {lfs lfs' : Lfs} (hsame : SameFs lfs lfs') :
    lfs'.blockCount = lfs.blockCount := by
  have heq := hsame.eq
  rw [heq]

theorem SameFs.onDevice {lfs lfs' : Lfs} (hsame : SameFs lfs lfs') {block : Block}
    (hdevice : OnDevice lfs block) : OnDevice lfs' block := by
  rw [OnDevice, hsame.blockCount]
  exact hdevice

namespace FileList

variable {lfs lfs' : Lfs} {head : Block} {size n p : ℕ} {blocks : ℕ → Block}

/-- The list of the first `n` bytes. -/
theorem restrict (hblock : 128 ≤ lfs.cfg.blockSize) (hlist : FileList lfs head size blocks)
    (hpos : 0 < n) (hle : n ≤ size) :
    FileList lfs (blocks (lastIndex lfs.cfg.blockSize n)) n blocks := by
  have hlt := hlist.lt
  have hindex : lastIndex lfs.cfg.blockSize n ≤ lastIndex lfs.cfg.blockSize size :=
    lfsCtzIndex_mono hblock (by omega) (by omega)
  exact
    { pos := hpos
      lt := by omega
      head_eq := rfl
      list := ⟨fun i hi => hlist.list.pointer i (hi.trans hindex)⟩
      device := fun i hi => hlist.device i (hi.trans hindex) }

theorem index_le (hblock : 128 ≤ lfs.cfg.blockSize) (hlist : FileList lfs head size blocks)
    (hp : p < size) :
    (lfsCtzIndex lfs.cfg.blockSize p).1 ≤ lastIndex lfs.cfg.blockSize size := by
  have hlt := hlist.lt
  exact lfsCtzIndex_mono hblock (by omega) (by omega)

theorem mem (hblock : 128 ≤ lfs.cfg.blockSize) (hlist : FileList lfs head size blocks)
    (hp : p < size) :
    blocks (lfsCtzIndex lfs.cfg.blockSize p).1 ∈ listedBlocks lfs.cfg.blockSize size blocks :=
  mem_listedBlocks.mpr ⟨_, hlist.index_le hblock hp, rfl⟩

theorem frame (hlist : FileList lfs head size blocks) (hsame : SameFs lfs lfs')
    (hagree : AgreeOn (listedBlocks lfs.cfg.blockSize size blocks) lfs.disk lfs'.disk) :
    FileList lfs' head size blocks where
  pos := hlist.pos
  lt := hlist.lt
  head_eq := by
    rw [hsame.cfg]
    exact hlist.head_eq
  list := by
    rw [hsame.cfg]
    constructor
    intro i hi hpos k hk
    rw [diskBytes, hagree _ (mem_listedBlocks.mpr ⟨i, hi, rfl⟩)]
    exact hlist.list.pointer i hi hpos k hk
  device := by
    rw [hsame.cfg]
    exact fun i hi => hsame.onDevice (hlist.device i hi)

theorem byteAt_frame (hblock : 128 ≤ lfs.cfg.blockSize) (hlist : FileList lfs head size blocks)
    (hsame : SameFs lfs lfs')
    (hagree : AgreeOn (listedBlocks lfs.cfg.blockSize size blocks) lfs.disk lfs'.disk)
    (hp : p < size) : lfs'.byteAt blocks p = lfs.byteAt blocks p := by
  rw [Lfs.byteAt, Lfs.byteAt, hsame.cfg, ctzByte, ctzByte, diskBytes,
    hagree _ (hlist.mem hblock hp)]
  rfl

end FileList

/-! ## Finding the block of a position -/

variable {base lfs : Lfs} {blocks : ℕ → Block} {last current target fuel : ℕ}

theorem delivers_lfsCtzFindGo (hlist : CtzList (diskBytes base.disk) blocks last)
    (hdevice : ∀ i ≤ last, OnDevice base (blocks i)) (hlast : current ≤ last)
    (htarget : target ≤ current) (hword : current < 2 ^ 32) (hfuel : current < target + fuel) :
    Delivers base (lfsCtzFindGo target fuel (blocks current) current) (blocks target) := by
  induction fuel generalizing current with
  | zero => omega
  | succ fuel ih =>
      rw [lfsCtzFindGo]
      by_cases hle : current ≤ target
      · have heq : current = target := by omega
        rw [if_pos hle, heq]
        exact Delivers.pure _
      · have hlt := not_le.mp hle
        have hcloser := jump_closer hlt
        have hskip : min (lfsNpw2 (current - target + 1) - 1) (lfsCtz current) =
            jump current target := by
          rw [lfsNpw2_succ, lfsCtz_eq (by omega) hword, jump]
        have hpointer := hlist.pointer current hlast (by omega) (jump current target) (by
          rw [lfsCtz_eq (by omega) hword]
          exact Nat.min_le_right _ _)
        rw [if_neg hle, hskip]
        apply (delivers_readBlock (hdevice current hlast)).bind
        rw [show readWord (base.disk (blocks current)).data (4 * jump current target) =
          blocks (current - 2 ^ jump current target) from hpointer]
        exact ih (by omega) hcloser.1 (by omega) (by omega)

/-- `lfs_ctz_find` gets to the block and the offset of a position. -/
theorem FileList.find {head : Block} {size pos : ℕ} (hblock : 128 ≤ base.cfg.blockSize)
    (hlist : FileList base head size blocks) (hpos : pos < size) :
    Delivers base (lfsCtzFind head size pos)
      (blocks (lfsCtzIndex base.cfg.blockSize pos).1, (lfsCtzIndex base.cfg.blockSize pos).2) := by
  have hsize := hlist.lt
  have hindex := hlist.index_le hblock hpos
  have hword : lastIndex base.cfg.blockSize size < 2 ^ 32 := by
    obtain ⟨index, off, hat⟩ := exists_ctzAt hblock (show size - 1 < 2 ^ 32 by omega)
    rw [lastIndex, lfsCtzIndex_eq hat (by omega)]
    exact lt_trans hat.index_lt (by norm_num [ctzLayout, ctzCount])
  rw [lfsCtzFind, if_neg hlist.pos.ne']
  apply Delivers.get_bind
  intro lfs hreads
  have hcfg : lfs.cfg = base.cfg := by rw [hreads.eq]
  rw [hcfg, ← hlist.head_eq]
  have hgo : Delivers base
      (lfsCtzFindGo (lfsCtzIndex base.cfg.blockSize pos).1 (lastIndex base.cfg.blockSize size + 1)
        (blocks (lastIndex base.cfg.blockSize size)) (lastIndex base.cfg.blockSize size))
      (blocks (lfsCtzIndex base.cfg.blockSize pos).1) :=
    delivers_lfsCtzFindGo hlist.list hlist.device (le_refl _) hindex hword (by omega)
  exact hgo.bind (Delivers.pure _)

/-! ## What a traversal hands out -/

/-- `lfs_ctz_traverse` hands out `handed`. -/
def Traverses (lfs : Lfs) (head : Block) (size : ℕ) (handed : List Block) : Prop :=
  lfsCtzTraverse listBlock head size [] lfs.bare = .ok handed lfs.bare

namespace Traverses

variable {lfs' : Lfs} {head : Block} {size : ℕ} {handed : List Block}

theorem append (htraverses : Traverses lfs head size handed) (acc : List Block) :
    lfsCtzTraverse listBlock head size acc lfs.bare = .ok (acc ++ handed) lfs.bare :=
  (lists_lfsCtzTraverse head size).append htraverses acc

theorem frame (htraverses : Traverses lfs head size handed) (hsame : SameFs lfs lfs')
    (hagree : AgreeOn handed lfs.disk lfs'.disk) : Traverses lfs' head size handed := by
  obtain ⟨-, -, hother⟩ :=
    (readsListed_lfsCtzTraverse head size [] lfs.bare rfl).of_ok htraverses
  have hrun := (ignoresHandles_lfsCtzTraverse head size [] lfs'.mlist).of_ok
    (hother lfs'.disk hagree)
  rw [Traverses, hsame.bare_eq]
  exact hrun

theorem unique {handed' : List Block} (htraverses : Traverses lfs head size handed)
    (htraverses' : Traverses lfs head size handed') : handed = handed' := by
  cases htraverses.symm.trans htraverses'
  rfl

/-- A list that ends in its first block. -/
theorem single (hindex : lastIndex lfs.cfg.blockSize size = 0) :
    Traverses lfs head size (if size = 0 then [] else [head]) := by
  rw [Traverses, lfsCtzTraverse]
  by_cases hzero : size = 0
  · rw [if_pos hzero, if_pos hzero]
    rfl
  · have hindex' : (lfsCtzIndex lfs.bare.cfg.blockSize (size - 1)).1 = 0 := hindex
    rw [if_neg hzero, if_neg hzero,
      bind_of_ok (show (get : FsM Lfs) lfs.bare = .ok lfs.bare lfs.bare from rfl)]
    simp only [hindex']
    rfl

end Traverses

theorem FileList.traverses {head : Block} {size : ℕ} (hblock : 128 ≤ lfs.cfg.blockSize)
    (hlist : FileList lfs head size blocks) :
    Traverses lfs head size (listedBlocks lfs.cfg.blockSize size blocks) := by
  have hsize := hlist.lt
  obtain ⟨index, off, hat⟩ := exists_ctzAt hblock (show size - 1 < 2 ^ 32 by omega)
  have hindex : lastIndex lfs.cfg.blockSize size = index := by
    rw [lastIndex, lfsCtzIndex_eq hat (by omega)]
  have hword : index < 2 ^ 32 := lt_trans hat.index_lt (by norm_num [ctzLayout, ctzCount])
  have hcalls : Calls listStep lfs.bare
      (ctzTraverseGo (callback listStep) readBytes (index + 1) (blocks index) index)
      ((List.range (index + 1)).reverse.map blocks) := by
    have hblock' : 8 ≤ lfs.bare.cfg.blockSize := le_trans (by norm_num) hblock
    have hlist' : CtzList (lfs.bare.bytesThrough none) blocks index := hindex ▸ hlist.list
    have hdevice : ∀ i ≤ index, OnDevice lfs.bare (blocks i) := hindex ▸ hlist.device
    exact calls_ctzTraverseGo (finds_readBytes lfs.bare) hblock' hlist' hdevice (le_refl index)
      hword (Nat.lt_succ_self _)
  have hstart := hcalls [] lfs.bare (Reads.refl _)
  have hrun : lfsCtzTraverse listBlock head size [] lfs.bare =
      ctzTraverseGo (callback listStep) readBytes (index + 1) (blocks index) index [] lfs.bare := by
    have hlast : (lfsCtzIndex lfs.bare.cfg.blockSize (size - 1)).1 = index := hindex
    rw [lfsCtzTraverse_eq, ctzTraverse, if_neg hlist.pos.ne',
      bind_of_ok (show (get : FsM Lfs) lfs.bare = .ok lfs.bare lfs.bare from rfl)]
    simp only [hlast, ← hlist.head_eq, hindex]
    rfl
  rw [Traverses, hrun]
  cases hend : ctzTraverseGo (callback listStep) readBytes (index + 1) (blocks index) index []
      lfs.bare with
  | ok handed lfs' =>
      obtain ⟨hreads, hhanded⟩ := hstart.of_ok hend
      rw [foldlM_listStep, List.nil_append] at hhanded
      have hsame : lfs' = lfs.bare := by
        have hscript : lfs'.script = lfs.bare.script := List.suffix_nil.mp hreads.suffix
        rw [hreads.eq, hscript]
      rw [hsame, ← Except.ok.inj hhanded, listedBlocks, hindex]
  | error failure lfs' =>
      apply (hstart.of_error hend).2.elim
      · exact fun h => absurd (fun event hevent => absurd hevent List.not_mem_nil) h.2
      · intro h
        obtain ⟨e, -, he⟩ := h
        rw [foldlM_listStep] at he
        cases he

/-- The blocks that a traversal reports for a file that is not inline. -/
theorem pends_of_traverses {file : Handle} {old new : List Block} (htype : file.type = .reg)
    (hinline : file.flags.inline = false)
    (hdirty : file.flags.dirty = true → Traverses lfs file.ctz.head file.ctz.size old)
    (hclean : file.flags.dirty = false → old = [])
    (hwriting : file.flags.writing = true → Traverses lfs file.block file.pos new)
    (hidle : file.flags.writing = false → new = []) : Pends lfs file (old ++ new) := by
  have hsecond : ∀ acc, (if file.flags.writing = true ∧ ¬file.flags.inline = true then
      lfsCtzTraverse listBlock file.block file.pos acc else pure acc : FsM (List Block)) lfs.bare =
        .ok (acc ++ new) lfs.bare := by
    intro acc
    cases hflag : file.flags.writing with
    | true =>
        rw [if_pos ⟨rfl, by rw [hinline]; exact Bool.false_ne_true⟩]
        exact (hwriting hflag).append acc
    | false =>
        rw [if_neg (fun h => Bool.false_ne_true h.1), hidle hflag, List.append_nil]
        rfl
  rw [Pends, traverseFile, if_neg (by rw [htype]; simp)]
  cases hflag : file.flags.dirty with
  | true =>
      rw [if_pos ⟨rfl, by rw [hinline]; exact Bool.false_ne_true⟩, bind_of_ok (hdirty hflag)]
      exact hsecond old
  | false =>
      rw [if_neg (fun h => Bool.false_ne_true h.1), hclean hflag]
      exact hsecond []

/-- A file whose data are inline has no blocks. -/
theorem pends_inline {file : Handle} (hinline : file.flags.inline = true) :
    Pends lfs file [] := by
  have hnot : ∀ flag : Bool, ¬(flag = true ∧ ¬file.flags.inline = true) :=
    fun _ h => h.2 hinline
  rw [Pends, traverseFile]
  simp only [hnot, if_false]
  split <;> rfl

end Littlefs
