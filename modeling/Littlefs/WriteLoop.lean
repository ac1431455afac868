import Littlefs.WritingFiles

/-!
# The loop of a write

Each turn makes a place for the next byte and programs as much as the block takes.  A block
that answers `Corrupt` is replaced, as long as nothing is written in it.
-/

namespace Littlefs

open Program SkipLists

variable {base lfs lfs' : Lfs} {key pos stop : ℕ} {file origin : Handle} {data bytes : Bytes}
  {committed others start old used own : List Block} {blocks : ℕ → Block}

/-! ## The first block -/

/-- The first block of a list holds the bytes before the position. -/
theorem readyFile_first (hblock : 128 ≤ lfs.cfg.blockSize) (hinline : file.flags.inline = false)
    (hwriting : file.flags.writing = true) (hunread : file.flags.reading = false)
    (hlength : data.length = max stop file.ctz.size)
    (hbacking : Backing lfs committed file.flags.dirty file.ctz stop data old)
    (hdevice : OnDevice lfs file.block) (hfree : file.block ∉ others ++ old)
    (hpos : file.pos < lfs.cfg.blockSize) (hword : file.pos + 1 < 2 ^ 32)
    (hoff : file.off = file.pos)
    (hbyte : ∀ p < file.pos, (diskBytes lfs.disk file.block).getD p 0 = data.getD p 0)
    (hgood : 0 < file.pos → lfs.progBad file.block = false) :
    ReadyFile lfs committed others file data old (fun _ => file.block) stop := by
  have hplace := lfsCtzIndex_first hblock hpos (by omega)
  have hlast : lastIndex lfs.cfg.blockSize (file.pos + 1) = 0 := by rw [lastIndex_succ, hplace]
  constructor
  · constructor
    · exact hinline
    · exact hwriting
    · exact hunread
    · exact hlength
    · exact hbacking
    · constructor
      · exact Nat.succ_pos _
      · exact hword
      · rfl
      · rw [hlast]
        exact ⟨fun i hi hpos => absurd hpos (by omega)⟩
      · exact fun _ _ => hdevice
    · intro p hp
      rw [← hbyte p hp, Lfs.byteAt, ctzByte, lfsCtzIndex_first hblock (by omega) (by omega)]
    · exact hfree
    · rw [hlast]
      exact fun i hi => absurd hi (Nat.not_lt_zero i)
  · rw [hplace]
    exact hoff
  · exact hgood

theorem mem_listedBlocks_first {blockSize size : ℕ} {first block : Block}
    (hmem : block ∈ listedBlocks blockSize size fun _ => first) : block = first := by
  obtain ⟨i, -, rfl⟩ := mem_listedBlocks.mp hmem
  rfl

/-- The blocks of a file that is written. -/
def grownBlocks (lfs : Lfs) (old : List Block) (size : ℕ) (blocks : ℕ → Block) : List Block :=
  old ++ listedBlocks lfs.cfg.blockSize size blocks

/-- A write has come to `pos`, where the last block has a place. -/
structure Placed (base : Lfs) (key : ℕ) (committed others start old : List Block)
    (origin : Handle) (data : Bytes) (stop pos : ℕ) (file : Handle) (blocks : ℕ → Block)
    (lfs : Lfs) : Prop where
  carrying : Carrying base key others start old origin file
    (grownBlocks base old (pos + 1) blocks) lfs
  ready : ReadyFile lfs committed others file data old blocks stop
  pos_eq : file.pos = pos

/-- A write has come to `pos`, behind what the last block holds. -/
structure WrittenFile (base : Lfs) (key : ℕ) (committed others start old : List Block)
    (origin : Handle) (data : Bytes) (stop pos : ℕ) (file : Handle) (blocks : ℕ → Block)
    (lfs : Lfs) : Prop where
  carrying : Carrying base key others start old origin file (grownBlocks base old pos blocks) lfs
  holds : WritingFile lfs committed others file data old blocks stop
  pos_eq : file.pos = pos

/-- The last block of the file is full, or nothing is written yet: its list can go on in a fresh
block. -/
structure Extendable (lfs : Lfs) (committed : List Block) (file : Handle) (data : Bytes)
    (old own : List Block) (blocks : ℕ → Block) (stop : ℕ) : Prop where
  inline : file.flags.inline = false
  unread : file.flags.reading = false
  length_eq : data.length = max stop file.ctz.size
  backing : Backing lfs committed file.flags.dirty file.ctz stop data old
  pends : Pends lfs file own
  head_eq : blocks (lastIndex lfs.cfg.blockSize file.pos) = file.block
  list : 0 < file.pos → ∃ head, FileList lfs head file.pos blocks ∧
    listedBlocks lfs.cfg.blockSize file.pos blocks ⊆ committed ++ own
  byte : ∀ p < file.pos, lfs.byteAt blocks p = data.getD p 0

/-- Nothing but the handles, the window or the script changes. -/
theorem Extendable.frame (hblock : 128 ≤ lfs.cfg.blockSize)
    (hfile : Extendable lfs committed file data old own blocks stop) (hsame : SameFs lfs lfs')
    (hdisk : lfs'.disk = lfs.disk) :
    Extendable lfs' committed file data old own blocks stop where
  inline := hfile.inline
  unread := hfile.unread
  length_eq := hfile.length_eq
  backing := hfile.backing.frame hblock hsame fun _ _ => by rw [hdisk]
  pends := hfile.pends.frame hsame fun _ _ => by rw [hdisk]
  head_eq := by
    rw [hsame.cfg]
    exact hfile.head_eq
  list hpos := by
    obtain ⟨head, hlist, hmem⟩ := hfile.list hpos
    rw [hsame.cfg]
    exact ⟨head, hlist.frame hsame fun _ _ => by rw [hdisk], hmem⟩
  byte p hp := by
    rw [← hfile.byte p hp, Lfs.byteAt, Lfs.byteAt, hsame.cfg, hdisk]

/-- A place in a fresh block. -/
theorem Carrying.placed {nblock : Block} {off : ℕ}
    (hcarrying : Carrying base key others start old origin file own lfs)
    (hsetting : Setting base key committed others start) (hsub : others ++ own ⊆ used)
    (hfile : Extendable lfs committed file data old own blocks stop)
    (hgranted : Granted used lfs nblock lfs') (hgood : 0 < file.pos → lfs.progBad nblock = false)
    (hgoes : GoesOn lfs.cfg.blockSize used (diskBytes lfs.disk) blocks file.pos nblock off
      (diskBytes lfs'.disk nblock))
    (hword : file.pos + 1 < 2 ^ 32) :
    ∃ blocks', Placed base key committed others start old origin data stop file.pos
      (file.growAt nblock off) blocks' { lfs' with
        mlist := updateHandle (updateHandle lfs'.mlist key
          fun file => { file with block := nblock, off := off }) key
            fun file => { file with flags := { file.flags with writing := true } } } := by
  have hblock := (hcarrying.limits hsetting).block_ge
  have hcommitted : committed ++ own ⊆ others ++ own :=
    List.append_subset.mpr ⟨List.Subset.trans hsetting.committed_sub
      (List.subset_append_left _ _), List.subset_append_right _ _⟩
  have hold : others ++ old ⊆ used := List.Subset.trans
    (List.append_subset.mpr ⟨List.subset_append_left _ _,
      List.Subset.trans hcarrying.old_sub (List.subset_append_right _ _)⟩) hsub
  have hlist' : 0 < file.pos → ∃ head, FileList lfs head file.pos blocks ∧
      listedBlocks lfs.cfg.blockSize file.pos blocks ⊆ used := by
    intro hpos
    obtain ⟨head, hlist, hmem⟩ := hfile.list hpos
    exact ⟨head, hlist, List.Subset.trans hmem (List.Subset.trans hcommitted hsub)⟩
  have hready := readyFile_of_goesOn hblock hgranted hgood hgoes hfile.inline hfile.unread
    hfile.length_eq hfile.backing hlist' hfile.byte hword hsetting.committed_sub hold
  have hindex : lastIndex base.cfg.blockSize (file.pos + 1) =
      (lfsCtzIndex lfs.cfg.blockSize file.pos).1 := by
    rw [lastIndex_succ, hcarrying.serving.cfg]
  have hgranted' : Carrying base key others start old origin file
      (grownBlocks base old (file.pos + 1)
        (Function.update blocks (lfsCtzIndex lfs.cfg.blockSize file.pos).1 nblock)) lfs' := by
    apply hcarrying.granted hsetting hsub hgranted (List.subset_append_left _ _)
    intro block hmem
    apply (List.mem_append.mp hmem).elim
    · exact fun h => Or.inr (List.mem_append_right _ (hcarrying.old_sub h))
    · intro h
      obtain ⟨i, hi, rfl⟩ := mem_listedBlocks.mp h
      rw [hindex] at hi
      obtain hlt | heq := lt_or_eq_of_le hi
      · have hpos : 0 < file.pos := by
          by_contra hzero
          rw [show file.pos = 0 by omega, lfsCtzIndex_zero hblock] at hlt
          exact absurd hlt (Nat.not_lt_zero _)
        obtain ⟨head, -, hmem⟩ := hfile.list hpos
        have hle := lfsCtzIndex_le_succ hblock hpos (by omega)
        rw [Function.update_of_ne hlt.ne]
        exact Or.inr (hmem (mem_listedBlocks.mpr ⟨i, by omega, rfl⟩))
      · rw [heq, Function.update_self]
        exact Or.inl rfl
  have hmoved := hgranted'.modify (fun file => { file with block := nblock, off := off }) rfl
    ⟨rfl, rfl, rfl, rfl⟩
  have hmodified := hmoved.modify
    (fun file => { file with flags := { file.flags with writing := true } }) rfl
    ⟨rfl, rfl, rfl, rfl⟩
  have hblock' : 128 ≤ lfs'.cfg.blockSize := by
    rw [hgranted.cfg]
    exact hblock
  exact ⟨_, hmodified, hready.frame hblock' ⟨rfl⟩ rfl, rfl⟩

/-! ## Making a place -/

/-- Take a fresh block behind the last one. -/
def extendList (key : ℕ) : FsM Unit := do
  let file ← getHandle key
  let (block, off) ← orErr key (lfsCtzExtend file.block file.pos)
  modifyHandle key fun file => { file with block := block, off := off }
  modifyHandle key fun file => { file with flags := { file.flags with writing := true } }

/-- The part of a turn that looks up or allocates the block of the next byte. -/
def makePlace (key blockSize : ℕ) : FsM Unit := do
  let file ← getHandle key
  if ¬file.flags.writing ∨ file.off = blockSize then
    if file.flags.inline then
      modifyHandle key fun file => { file with block := blockInline, off := file.pos }
      modifyHandle key fun file => { file with flags := { file.flags with writing := true } }
    else
      if ¬file.flags.writing ∧ 0 < file.pos then
        let (block, _) ←
          orErr key (lfsCtzFind file.ctz.head file.ctz.size (file.pos - 1))
        modifyHandle key fun file => { file with block := block }
      lfsAllocCkpoint
      extendList key

/-- The part of a turn that programs what fits the block. -/
def writeTurn (key blockSize : ℕ) (data : Bytes) : FsM ℕ := do
  let file ← getHandle key
  let diff := min data.length (blockSize - file.off)
  progFile key (data.take diff) retryFuel
  modifyHandle key fun file =>
    { file with pos := file.pos + diff, off := file.off + diff }
  lfsAllocCkpoint
  return diff

/-- The write has a place for its next byte. -/
def HasPlace (base : Lfs) (key : ℕ) (committed others start old : List Block) (origin : Handle)
    (data : Bytes) (stop pos : ℕ) (lfs : Lfs) : Prop :=
  ∃ file blocks, Placed base key committed others start old origin data stop pos file blocks lfs

theorem extendList_placed (hcarrying : Carrying base key others start old origin file own lfs)
    (hsetting : Setting base key committed others start)
    (hfile : Extendable lfs committed file data old own blocks stop)
    (hword : file.pos + 1 < 2 ^ 32) :
    Completes base (extendList key)
      (fun _ => HasPlace base key committed others start old origin data stop file.pos) lfs := by
  have hlimits := hcarrying.limits hsetting
  obtain ⟨used, hreported, hinv, hsub⟩ := hcarrying.allocates hsetting hfile.pends
  have hlist : 0 < file.pos → CtzList (diskBytes lfs.disk) blocks
      (lfsCtzIndex lfs.cfg.blockSize (file.pos - 1)).1 := by
    intro hpos
    obtain ⟨head, hlist, -⟩ := hfile.list hpos
    exact hlist.list
  have hused : 0 < file.pos → ∀ i ≤ (lfsCtzIndex lfs.cfg.blockSize (file.pos - 1)).1,
      blocks i ∈ used ∧ OnDevice lfs (blocks i) := by
    intro hpos i hi
    obtain ⟨head, hlist, hmem⟩ := hfile.list hpos
    refine ⟨hsub ?_, hlist.device i hi⟩
    apply (List.mem_append.mp (hmem (mem_listedBlocks.mpr ⟨i, hi, rfl⟩))).elim
    · exact fun h => List.mem_append_left _ (hsetting.committed_sub h)
    · exact fun h => List.mem_append_right _ h
  have hgrants := lfsCtzExtend_grants hlimits.block_ge (by omega) hreported hinv hlimits.bits_pos
    hlist hused
  rw [show blocks (lfsCtzIndex lfs.cfg.blockSize (file.pos - 1)).1 = file.block from
    hfile.head_eq] at hgrants
  apply hcarrying.serving.handle hsetting.present
  apply (completes_orErr (hgrants.widen hcarrying.serving.suffix)).bind
  intro result lfs' h
  obtain ⟨hgranted, hgood, hgoes⟩ := h
  exact ⟨_, hcarrying.placed hsetting hsub hfile hgranted hgood hgoes hword⟩

/-- `lfs_ctz_extend` starts from a checkpoint. -/
theorem ckpoint_extendList_placed
    (hcarrying : Carrying base key others start old origin file own lfs)
    (hsetting : Setting base key committed others start)
    (hfile : Extendable lfs committed file data old own blocks stop)
    (hword : file.pos + 1 < 2 ^ 32) :
    Completes base (do
      lfsAllocCkpoint
      extendList key)
      (fun _ => HasPlace base key committed others start old origin data stop file.pos) lfs := by
  have hafter : Extendable { lfs with lookahead := lfs.lookahead.checkpoint lfs.blockCount }
      committed file data old own blocks stop :=
    hfile.frame (hcarrying.limits hsetting).block_ge ⟨rfl⟩ rfl
  exact completes_ckpoint (extendList_placed hcarrying.checkpoint hsetting hafter hword)

theorem WritingFile.extendable (hblock : 128 ≤ lfs.cfg.blockSize)
    (hfile : WritingFile lfs committed others file data old blocks stop)
    (htype : file.type = .reg) :
    Extendable lfs committed file data old (grownBlocks lfs old file.pos blocks) blocks stop where
  inline := hfile.inline
  unread := hfile.unread
  length_eq := hfile.length_eq
  backing := hfile.backing
  pends := pends_of_traverses htype hfile.inline hfile.backing.traverses hfile.backing.clean
    (fun _ => hfile.list.traverses hblock) fun hidle => absurd hidle (by simp [hfile.writing])
  head_eq := hfile.list.head_eq
  list _ := ⟨file.block, hfile.list, List.Subset.trans (List.subset_append_right _ _)
    (List.subset_append_right _ _)⟩
  byte := hfile.byte

/-- The file is not written yet, and its bytes up to the position are on its list. -/
structure Starting (lfs : Lfs) (committed : List Block) (file : Handle) (data : Bytes)
    (old : List Block) (blocks : ℕ → Block) (stop : ℕ) : Prop where
  inline : file.flags.inline = false
  idle : file.flags.writing = false
  unread : file.flags.reading = false
  length_eq : data.length = max stop file.ctz.size
  backing : Backing lfs committed file.flags.dirty file.ctz stop data old
  list : FileList lfs file.ctz.head file.ctz.size blocks
  covered : listedBlocks lfs.cfg.blockSize file.ctz.size blocks ⊆ committed ++ old
  pos_le : file.pos ≤ file.ctz.size
  byte : ∀ p < file.pos, lfs.byteAt blocks p = data.getD p 0

/-- The list can go on from the block before the position. -/
theorem Starting.extendable (hblock : 128 ≤ lfs.cfg.blockSize)
    (hfile : Starting lfs committed file data old blocks stop) (htype : file.type = .reg)
    {blocks' : ℕ → Block} {block : Block}
    (hhead : blocks' (lastIndex lfs.cfg.blockSize file.pos) = block)
    (hsame : 0 < file.pos → blocks' = blocks) :
    Extendable lfs committed { file with block := block } data old old blocks' stop where
  inline := hfile.inline
  unread := hfile.unread
  length_eq := hfile.length_eq
  backing := hfile.backing
  pends := by
    have hpends : Pends lfs { file with block := block } (old ++ []) :=
      pends_of_traverses htype hfile.inline hfile.backing.traverses hfile.backing.clean
        (fun hwriting => absurd hwriting (by simp [hfile.idle])) fun _ => rfl
    rwa [List.append_nil] at hpends
  head_eq := hhead
  list hpos := by
    rw [hsame hpos]
    refine ⟨_, hfile.list.restrict hblock hpos hfile.pos_le, ?_⟩
    intro other hmem
    obtain ⟨i, hi, rfl⟩ := mem_listedBlocks.mp hmem
    have hsize := hfile.list.lt
    have hle := hfile.pos_le
    have hindex : lastIndex lfs.cfg.blockSize file.pos ≤
        lastIndex lfs.cfg.blockSize file.ctz.size := lfsCtzIndex_mono hblock (by omega) (by omega)
    exact hfile.covered (mem_listedBlocks.mpr ⟨i, hi.trans hindex, rfl⟩)
  byte p hp := by
    rw [hsame (Nat.zero_lt_of_lt hp)]
    exact hfile.byte p hp

/-- Where the last block has a place, there is nothing to do. -/
theorem makePlace_placed
    (hplaced : Placed base key committed others start old origin data stop pos file blocks lfs)
    (hsetting : Setting base key committed others start) (hword : pos < 2 ^ 32) :
    Completes base (makePlace key lfs.cfg.blockSize)
      (fun _ => HasPlace base key committed others start old origin data stop pos) lfs := by
  have hlimits := hplaced.carrying.limits hsetting
  apply hplaced.carrying.serving.handle hsetting.present
  apply Completes.ite
  · intro hmove
    exfalso
    apply hmove.elim
    · exact fun hidle => hidle hplaced.ready.writing
    · intro hfull
      rw [hplaced.ready.off_eq, hplaced.pos_eq] at hfull
      exact absurd (lfsCtzIndex_lt hlimits.block_ge hword) (by omega)
  · exact fun _ => Completes.pure ⟨file, blocks, hplaced⟩

/-- Behind the last block comes a fresh one, when it is full. -/
theorem makePlace_written
    (hwritten : WrittenFile base key committed others start old origin data stop pos file
      blocks lfs)
    (hsetting : Setting base key committed others start) (hword : pos + 1 < 2 ^ 32)
    (htype : origin.type = .reg) :
    Completes base (makePlace key lfs.cfg.blockSize)
      (fun _ => HasPlace base key committed others start old origin data stop pos) lfs := by
  have hlimits := hwritten.carrying.limits hsetting
  have hpos := hwritten.pos_eq
  subst hpos
  have hfile := hwritten.holds
  apply hwritten.carrying.serving.handle hsetting.present
  apply Completes.ite
  · intro _
    have hcarrying := hwritten.carrying
    rw [show grownBlocks base old file.pos blocks = grownBlocks lfs old file.pos blocks by
      rw [grownBlocks, grownBlocks, hcarrying.serving.cfg]] at hcarrying
    rw [if_neg (by simp [hfile.inline]), if_neg (by simp [hfile.writing])]
    exact ckpoint_extendList_placed hcarrying hsetting
      (hfile.extendable hlimits.block_ge (hcarrying.struct.type_eq.trans htype)) hword
  · intro hstay
    have hroom : file.off < lfs.cfg.blockSize := by
      have hne := (not_or.mp hstay).2
      have hlt : (lfsCtzIndex lfs.cfg.blockSize (file.pos - 1)).2 < lfs.cfg.blockSize :=
        lfsCtzIndex_lt hlimits.block_ge (by omega)
      have hoff := hfile.off_eq
      omega
    have hindex : lastIndex base.cfg.blockSize (file.pos + 1) =
        lastIndex base.cfg.blockSize file.pos := by
      rw [lastIndex_succ, ← hwritten.carrying.serving.cfg,
        lfsCtzIndex_unfilled hlimits.block_ge hfile.list.pos hfile.list.lt
          (hfile.off_eq ▸ hroom)]
    apply Completes.pure
    refine ⟨file, blocks, ?_, hfile.ready hlimits.block_ge hroom hword, rfl⟩
    have hcarrying := hwritten.carrying
    rw [grownBlocks, listedBlocks, ← hindex] at hcarrying
    exact hcarrying

/-- An idle file goes on from the block before its position. -/
theorem makePlace_starting (hcarrying : Carrying base key others start old origin file old lfs)
    (hsetting : Setting base key committed others start)
    (hfile : Starting lfs committed file data old blocks stop) (hword : file.pos + 1 < 2 ^ 32)
    (htype : origin.type = .reg) :
    Completes base (makePlace key lfs.cfg.blockSize)
      (fun _ => HasPlace base key committed others start old origin data stop file.pos) lfs := by
  have hblock := (hcarrying.limits hsetting).block_ge
  have htype' := hcarrying.struct.type_eq.trans htype
  apply hcarrying.serving.handle hsetting.present
  rw [if_pos (Or.inl (by simp [hfile.idle])), if_neg (by simp [hfile.inline])]
  by_cases hpos : 0 < file.pos
  · have hfind : Delivers lfs (lfsCtzFind file.ctz.head file.ctz.size (file.pos - 1)) _ :=
      hfile.list.find hblock (by
        have hle := hfile.pos_le
        omega)
    rw [if_pos ⟨by simp [hfile.idle], hpos⟩]
    apply (completes_orErr (completes_of_delivers hcarrying.serving.suffix hfind)).bind
    intro place lfs' h
    obtain ⟨rfl, hreads⟩ := h
    obtain ⟨block, hplace⟩ : ∃ block,
        blocks (lfsCtzIndex lfs.cfg.blockSize (file.pos - 1)).1 = block := ⟨_, rfl⟩
    have hstart := (hfile.extendable hblock htype' hplace fun _ => rfl).frame hblock
      (show SameFs lfs { lfs' with
        mlist := updateHandle lfs'.mlist key fun file => { file with block := block } } from
          ⟨by rw [hreads.eq]⟩)
      (by rw [hreads.eq])
    have hmoved := (hcarrying.reads hreads).modify (fun file => { file with block := block }) rfl
      ⟨rfl, rfl, rfl, rfl⟩
    have hextends := ckpoint_extendList_placed hmoved hsetting hstart hword
    rw [hplace]
    exact hextends
  · have hstart : Extendable lfs committed { file with block := file.block } data old old
        (fun _ => file.block) stop :=
      hfile.extendable hblock htype' rfl fun h => absurd h hpos
    rw [if_neg fun h => hpos h.2]
    exact ckpoint_extendList_placed hcarrying hsetting hstart hword

theorem lfsFileFlushedwriteGo_turn (fuel : ℕ) (hne : bytes ≠ []) :
    lfsFileFlushedwriteGo key (fuel + 1) bytes = (do
      let lfs ← get
      makePlace key lfs.cfg.blockSize
      let diff ← writeTurn key lfs.cfg.blockSize bytes
      lfsFileFlushedwriteGo key fuel (bytes.drop diff)) := by
  rw [lfsFileFlushedwriteGo, if_neg hne]
  congr 1
  funext lfs
  simp only [makePlace, extendList, writeTurn, bind_assoc, pure_bind]
  congr 1
  funext file
  split
  · split
    · simp only [bind_assoc]
    · split <;> simp only [bind_assoc]
  · rfl

theorem lfsFileFlushedwriteGo_nil {fuel : ℕ} (hfuel : 0 < fuel) :
    lfsFileFlushedwriteGo key fuel [] = return () := by
  cases fuel with
  | zero => exact absurd hfuel (Nat.lt_irrefl 0)
  | succ fuel => rw [lfsFileFlushedwriteGo, if_pos rfl]

/-! ## Programming -/

/-- The blocks of a file that has nothing on its list yet. -/
theorem ReadyFile.pends_first (hfile : ReadyFile lfs committed others file data old blocks stop)
    (htype : file.type = .reg) (hzero : file.pos = 0) : Pends lfs file old := by
  have hempty : Traverses lfs file.block file.pos [] := by
    rw [hzero]
    rfl
  have hpends : Pends lfs file (old ++ []) :=
    pends_of_traverses htype hfile.inline hfile.backing.traverses hfile.backing.clean
      (fun _ => hempty) fun _ => rfl
  rwa [List.append_nil] at hpends

/-- An empty list, in whatever block it begins. -/
theorem Growing.first (hblock : 128 ≤ lfs.cfg.blockSize)
    (hfile : Growing lfs committed others file data old blocks stop (file.pos + 1))
    (hzero : file.pos = 0) (hoff : file.off = 0) {nblock : Block} (hsame : SameFs lfs lfs')
    (hagree : AgreeOn (committed ++ old) lfs.disk lfs'.disk) (hdevice : OnDevice lfs' nblock)
    (hfree : nblock ∉ others ++ old) :
    ReadyFile lfs' committed others (file.relocated nblock) data old (fun _ => nblock) stop := by
  have hblock' : 128 ≤ lfs'.cfg.blockSize := by
    rw [hsame.cfg]
    exact hblock
  have hpos : (file.relocated nblock).pos = 0 := hzero
  apply readyFile_first hblock'
  · exact hfile.inline
  · rfl
  · exact hfile.unread
  · exact hfile.length_eq
  · exact hfile.backing.frame hblock hsame hagree
  · exact hdevice
  · exact hfree
  · omega
  · omega
  · rw [hpos]
    exact hoff
  · intro p hp
    omega
  · intro hp
    omega

/-- What a turn programs is on the last block, and the position is still to come. -/
structure Programmed (base : Lfs) (key : ℕ) (committed others start old : List Block)
    (origin : Handle) (data : Bytes) (stop pos n : ℕ) (file : Handle) (blocks : ℕ → Block)
    (lfs : Lfs) : Prop where
  carrying : Carrying base key others start old origin file
    (grownBlocks base old (pos + n) blocks) lfs
  holds : WritingFile lfs committed others (file.advance n) data old blocks stop
  pos_eq : file.pos = pos

/-- A bad block is replaced as long as the list is empty. -/
theorem Placed.relocates {image : BlockImage}
    (hplaced : Placed base key committed others start old origin data stop 0 file blocks lfs)
    (hsetting : Setting base key committed others start) (htype : origin.type = .reg)
    (hwrote : Wrote file.block image lfs lfs') :
    Completes base (lfsFileRelocate key) (fun _ after => ∃ nblock,
      Placed base key committed others start old origin data stop 0 (file.relocated nblock)
        (fun _ => nblock) after ∧
      after.lookahead.ckpoint < lfs'.lookahead.ckpoint) lfs' := by
  have hready := hplaced.ready
  have hzero := hplaced.pos_eq
  have hlimits := hplaced.carrying.limits hsetting
  have hoff : file.off = 0 := by
    rw [hready.off_eq, hzero, lfsCtzIndex_zero hlimits.block_ge]
  have hcarrying := (hplaced.carrying.wrote hready.free hwrote).shrink (List.Subset.refl old)
    (List.subset_append_left _ _)
  have hframe := hcarrying.frame_sub hsetting
  have hsame : SameFs lfs lfs' := ⟨by rw [hwrote.eq]⟩
  have hagree : AgreeOn (others ++ old) lfs.disk lfs'.disk := by
    intro block hmem
    have hne : block ≠ file.block := by
      rintro rfl
      exact hready.free hmem
    rw [hwrote.eq]
    exact Function.update_of_ne hne _ _
  have hpends : Pends lfs' file old := (hready.pends_first
    (hcarrying.struct.type_eq.trans htype) hzero).frame hsame
      (hagree.mono (List.subset_append_right _ _))
  obtain ⟨used, hreported, hinv, hsub⟩ := hcarrying.allocates hsetting hpends
  apply (hcarrying.relocates hsetting hreported hinv hsub (fun h => absurd hoff h)).widen
    hcarrying.serving.suffix |>.imp
  intro _ after h
  obtain ⟨nblock, middle, hgranted, rfl, hcount, -⟩ := h
  have hsame' : SameFs lfs { middle with
      mlist := updateHandle middle.mlist key fun file => file.relocated nblock } := by
    have heq := hgranted.eq
    constructor
    rw [heq, hwrote.eq]
  have hgrown := hcarrying.granted hsetting hsub hgranted
    (List.subset_append_left old (listedBlocks base.cfg.blockSize (0 + 1) fun _ => nblock)) (by
      intro block hmem
      apply (List.mem_append.mp hmem).elim
      · exact fun h => Or.inr (List.mem_append_right _ h)
      · exact fun h => Or.inl (mem_listedBlocks_first h))
  refine ⟨nblock, ⟨hgrown.modify (fun file => file.relocated nblock) rfl ⟨rfl, rfl, rfl, rfl⟩, ?_,
    hzero⟩, hcount hoff⟩
  have hgrowing : Growing lfs committed others file data old blocks stop (file.pos + 1) :=
    hready.toGrowing
  apply hgrowing.first hlimits.block_ge hzero hoff hsame'
  · intro block hmem
    exact (hgranted.agree block (hsub (hframe hmem))).trans (hagree block (hframe hmem))
  · intro h
    exact absurd hgranted.lt (not_lt.mpr (hgranted.blockCount ▸ h.2))
  · exact fun hmem => hgranted.free (hsub hmem)

theorem progFile_programs (hsetting : Setting base key committed others start)
    (htype : origin.type = .reg) (hpos : 0 < bytes.length)
    (hroom : (lfsCtzIndex base.cfg.blockSize pos).2 + bytes.length ≤ base.cfg.blockSize)
    (hword : pos + bytes.length < 2 ^ 32)
    (hbytes : ∀ k < bytes.length, data.getD (pos + k) 0 = bytes.getD k 0) (fuel : ℕ)
    (hfuel : lfs.lookahead.ckpoint < fuel)
    (hplaced : Placed base key committed others start old origin data stop pos file blocks lfs) :
    Completes base (progFile key bytes fuel) (fun _ lfs' => ∃ file blocks,
      Programmed base key committed others start old origin data stop pos bytes.length file
        blocks lfs') lfs := by
  induction fuel generalizing lfs file blocks with
  | zero => exact absurd hfuel (Nat.not_lt_zero _)
  | succ fuel ih =>
      have hready := hplaced.ready
      have hat := hplaced.pos_eq
      have hblock := (hplaced.carrying.limits hsetting).block_ge
      have hcfg := hplaced.carrying.serving.cfg
      rw [progFile]
      apply hplaced.carrying.serving.handle hsetting.present
      rw [if_neg (by simp [hready.inline])]
      apply outcome_bind.mpr
      apply (outcome_progData_answered file.block file.off bytes lfs).tryError
      · intro _ lfs' h
        obtain ⟨⟨image, hwrote, hdata⟩, hgood⟩ := h
        have hwritten := hready.program hblock hwrote hdata hgood hpos
          (by rw [hready.off_eq, hcfg, hat]; exact hroom) (by omega) hsetting.committed_sub
          (by rw [hat]; exact hbytes)
        have hindex : lastIndex base.cfg.blockSize (pos + bytes.length) =
            lastIndex base.cfg.blockSize (pos + 1) := by
          rw [lastIndex_succ, lastIndex_add (hcfg ▸ hblock) hpos hword hroom]
        have hcarrying := hplaced.carrying.wrote hready.free hwrote
        rw [grownBlocks, listedBlocks, ← hindex] at hcarrying
        exact Completes.pure ⟨file, blocks, hcarrying, hwritten, hat⟩
      · intro e lfs' h
        obtain ⟨⟨image, hwrote⟩, hfails⟩ := h
        apply hfails.elim
        · intro hcorrupt
          obtain ⟨heq, hbad⟩ := hcorrupt
          cases heq
          -- nothing is written yet: a block that holds bytes has taken some before
          have hzero : pos = 0 := by
            by_contra hne
            have hgood := hready.good (by omega)
            rw [hgood] at hbad
            exact Bool.false_ne_true hbad
          subst hzero
          apply (completes_orErr (hplaced.relocates hsetting htype hwrote)).bind
          intro _ after h
          obtain ⟨nblock, hagain, hcount⟩ := h
          have hckpoint : lfs'.lookahead.ckpoint = lfs.lookahead.ckpoint := by rw [hwrote.eq]
          exact ih (by omega) hagain
        · intro hio
          obtain ⟨heq, hanswered⟩ := hio
          cases heq
          have hdefeated : Defeated lfs (.error .io) := Or.inr ⟨rfl, hanswered⟩
          exact hdefeated.widen hplaced.carrying.serving.suffix
      · intro fault lfs' hfault h
        exact h.2.elim (fun heq => absurd heq.1 (hfault _)) fun hio => absurd hio.1 (hfault _)

/-- A turn writes as much as the block takes. -/
theorem writeTurn_written (hsetting : Setting base key committed others start)
    (htype : origin.type = .reg) (hpos : 0 < bytes.length)
    (hword : pos + bytes.length < 2 ^ 32)
    (hbytes : ∀ k < bytes.length, data.getD (pos + k) 0 = bytes.getD k 0)
    (hplace : HasPlace base key committed others start old origin data stop pos lfs) :
    Completes base (writeTurn key base.cfg.blockSize bytes) (fun diff lfs' => 0 < diff ∧
      diff ≤ bytes.length ∧ ∃ file blocks,
        WrittenFile base key committed others start old origin data stop (pos + diff) file
          blocks lfs') lfs := by
  obtain ⟨file, blocks, hplaced⟩ := hplace
  have hready := hplaced.ready
  have hat := hplaced.pos_eq
  have hblock := (hplaced.carrying.limits hsetting).block_ge
  have hcfg := hplaced.carrying.serving.cfg
  have hlt : (lfsCtzIndex base.cfg.blockSize pos).2 < base.cfg.blockSize :=
    lfsCtzIndex_lt (hcfg ▸ hblock) (by omega)
  have hoff : file.off = (lfsCtzIndex base.cfg.blockSize pos).2 := by
    rw [hready.off_eq, hat, hcfg]
  apply hplaced.carrying.serving.handle hsetting.present
  obtain ⟨diff, hdiff⟩ : ∃ diff, min bytes.length (base.cfg.blockSize - file.off) = diff :=
    ⟨_, rfl⟩
  have hlength : (bytes.take diff).length = diff := by
    rw [List.length_take]
    omega
  dsimp only
  rw [hdiff]
  have htake : ∀ k < (bytes.take diff).length,
      data.getD (pos + k) 0 = (bytes.take diff).getD k 0 := by
    intro k hk
    rw [hbytes k (by omega), List.getD_eq_getElem _ _ hk, List.getElem_take,
      List.getD_eq_getElem]
  have hprogram := progFile_programs hsetting htype (by omega) (by omega) (by omega) htake
    retryFuel hplaced.carrying.inv.fuel hplaced
  apply hprogram.bind
  intro _ lfs' h
  obtain ⟨file', blocks', hprogrammed⟩ := h
  rw [hlength] at hprogrammed
  apply Serving.modify_bind
  apply completes_ckpoint
  apply Completes.pure
  refine ⟨by omega, by omega, file'.advance diff, blocks', ?_, ?_, ?_⟩
  · exact (hprogrammed.carrying.modify
      (fun file => { file with pos := file.pos + diff, off := file.off + diff }) rfl
      ⟨rfl, rfl, rfl, rfl⟩).checkpoint
  · have hblock' := (hprogrammed.carrying.limits hsetting).block_ge
    exact hprogrammed.holds.frame hblock' ⟨rfl⟩ (fun _ _ => rfl)
      fun h => hprogrammed.holds.free (List.mem_append_left _ h)
  · exact congrArg (· + diff) hprogrammed.pos_eq

/-- The loop writes all its bytes, from a place for the first of them. -/
theorem lfsFileFlushedwriteGo_written (hsetting : Setting base key committed others start)
    (htype : origin.type = .reg) (fuel : ℕ) (hcfg : lfs.cfg = base.cfg)
    (hplace : Completes base (makePlace key base.cfg.blockSize)
      (fun _ => HasPlace base key committed others start old origin data stop pos) lfs)
    (hpos : 0 < bytes.length) (hfuel : bytes.length < fuel)
    (hword : pos + bytes.length < 2 ^ 32)
    (hbytes : ∀ k < bytes.length, data.getD (pos + k) 0 = bytes.getD k 0) :
    Completes base (lfsFileFlushedwriteGo key fuel bytes) (fun _ lfs' => ∃ file blocks,
      WrittenFile base key committed others start old origin data stop (pos + bytes.length) file
        blocks lfs') lfs := by
  induction fuel generalizing lfs pos bytes with
  | zero => exact absurd hfuel (Nat.not_lt_zero _)
  | succ fuel ih =>
      rw [lfsFileFlushedwriteGo_turn fuel (List.ne_nil_of_length_pos hpos)]
      apply Completes.get_bind
      rw [hcfg]
      apply hplace.bind
      intro _ placed hplace
      apply (writeTurn_written hsetting htype hpos hword hbytes hplace).bind
      intro diff lfs' h
      obtain ⟨hdiff, hle, file, blocks, hwritten⟩ := h
      by_cases hrest : diff = bytes.length
      · rw [hrest, List.drop_length, lfsFileFlushedwriteGo_nil (by omega)]
        exact Completes.pure ⟨file, blocks, hrest ▸ hwritten⟩
      · have hlength : (bytes.drop diff).length = bytes.length - diff := List.length_drop
        have hcfg' := hwritten.carrying.serving.cfg
        have hnext := makePlace_written hwritten hsetting (by omega) htype
        have hrest' : ∀ k < (bytes.drop diff).length,
            data.getD (pos + diff + k) 0 = (bytes.drop diff).getD k 0 := by
          intro k hk
          rw [Nat.add_assoc, hbytes (diff + k) (by omega), List.getD_eq_getElem?_getD,
            List.getD_eq_getElem?_getD, List.getElem?_drop]
        have hend : pos + diff + (bytes.drop diff).length = pos + bytes.length := by omega
        rw [hcfg'] at hnext
        rw [← hend] at hword ⊢
        exact ih hcfg' hnext (by omega) (by omega) hword hrest'

end Littlefs
