import Littlefs.WriteLoop

/-!
# Writing at the position of an open file

`lfs_file_flushedwrite` in the three states of a file.  Data that fit stay in the cache;
data that grow beyond the inline limit are outlined first, and what is before the position
moves to a block of its own.
-/

namespace Littlefs

open Program SkipLists

variable {base lfs lfs' : Lfs} {key pos stop : ℕ} {file origin : Handle} {data bytes : Bytes}
  {committed others start old used own : List Block} {blocks : ℕ → Block} {array : ByteFile}

/-- The array, with bytes put in at its position. -/
def ByteFile.put (array : ByteFile) (bytes : Bytes) : ByteFile :=
  { array with data := spliced array.data array.pos bytes, pos := array.pos + bytes.length }

theorem getD_spliced_before {p : ℕ} (hp : p < pos) :
    (spliced data pos bytes).getD p 0 = data.getD p 0 := by
  rw [getD_spliced, if_neg (by omega)]

theorem getD_spliced_behind {p : ℕ} (hp : pos + bytes.length ≤ p) :
    (spliced data pos bytes).getD p 0 = data.getD p 0 := by
  rw [getD_spliced, if_neg (by omega)]

theorem getD_spliced_inside (k : ℕ) (hk : k < bytes.length) :
    (spliced data pos bytes).getD (pos + k) 0 = bytes.getD k 0 := by
  rw [getD_spliced, if_pos (by omega), Nat.add_sub_cancel_left]

/-! ## Lists -/

/-- More is to be written, or something else. -/
theorem WritingFile.restate {stop' : ℕ} {data' : Bytes}
    (hfile : WritingFile lfs committed others file data old blocks stop) (hle : stop ≤ stop')
    (hlength : data'.length = max stop' file.ctz.size)
    (hbefore : ∀ p < file.pos, data'.getD p 0 = data.getD p 0)
    (hbehind : ∀ p, stop' ≤ p → p < file.ctz.size → data'.getD p 0 = data.getD p 0) :
    WritingFile lfs committed others file data' old blocks stop' :=
  { hfile with
    length_eq := hlength
    backing := hfile.backing.mono hle hbehind
    byte := by
      intro p hp
      rw [hbefore p hp]
      exact hfile.byte p hp }

theorem ListedFile.starting (hfile : ListedFile lfs committed file data old blocks)
    (hunread : file.flags.reading = false) (hpos : file.pos ≤ data.length) (bytes : Bytes) :
    Starting lfs committed file (spliced data file.pos bytes) old blocks
      (file.pos + bytes.length) where
  inline := hfile.inline
  idle := hfile.idle
  unread := hunread
  length_eq := by rw [length_spliced, hfile.length_eq]
  backing := (hfile.backing (file.pos + bytes.length)).mono (le_refl _)
    fun p hp _ => getD_spliced_behind hp
  list := hfile.list
  covered := hfile.covered
  pos_le := hfile.length_eq ▸ hpos
  byte p hp := by
    rw [getD_spliced_before hp]
    have hsize := hfile.length_eq
    exact hfile.byte p (by omega)

/-- A write of some bytes to a file that is not inline. -/
theorem lfsFileFlushedwrite_written (hsetting : Setting base key committed others start)
    (htype : origin.type = .reg)
    (hserving : Serving base key others file lfs) (hinline : file.flags.inline = false)
    (hplace : Completes base (makePlace key base.cfg.blockSize)
      (fun _ => HasPlace base key committed others start old origin data stop pos) lfs)
    (hpos : 0 < bytes.length) (hword : pos + bytes.length < 2 ^ 32)
    (hbytes : ∀ k < bytes.length, data.getD (pos + k) 0 = bytes.getD k 0) :
    Completes base (lfsFileFlushedwrite key bytes) (fun _ lfs' => ∃ file blocks,
      WrittenFile base key committed others start old origin data stop (pos + bytes.length) file
        blocks lfs') lfs := by
  rw [lfsFileFlushedwrite, if_neg (List.ne_nil_of_length_pos hpos)]
  apply Completes.get_bind
  apply hserving.handle hsetting.present
  rw [if_neg fun h => Bool.false_ne_true (hinline ▸ h.1)]
  exact lfsFileFlushedwriteGo_written hsetting htype _ hserving.cfg hplace hpos (by omega) hword
    hbytes

/-- A write is done, and the file stands for the new array. -/
theorem WrittenFile.openFile
    (hserving : Serving base key others file lfs) {file' : Handle}
    (hwritten : WrittenFile lfs key committed others start old file array.data array.pos array.pos
      file' blocks lfs')
    (hrepresents : file.type = .reg ∧ file.flags.append = array.append)
    (hmax : array.pos ≤ base.fileMax ∧ array.data.length ≤ base.fileMax)
    (happending : file.flags.append = true → file.ctz.size ≤ array.pos) :
    OpenFile base key committed others start array file' (grownBlocks lfs old array.pos blocks)
      lfs' where
  serving := hserving.trans (hwritten.carrying.serving.mono (List.subset_append_left _ _))
  represents :=
    { type_eq := hwritten.carrying.struct.type_eq.trans hrepresents.1
      append_eq := hwritten.carrying.struct.append_eq.trans hrepresents.2
      pos_eq := hwritten.pos_eq
      pos_le := by
        rw [hwritten.pos_eq, hwritten.carrying.serving.fileMax, hserving.fileMax]
        exact hmax.1
      length_le := by
        rw [hwritten.carrying.serving.fileMax, hserving.fileMax]
        exact hmax.2
      appending := by
        rw [hwritten.carrying.struct.append_eq, hwritten.carrying.struct.ctz_eq, hwritten.pos_eq]
        exact fun happend _ => happending happend
      mode := by
        have hholds := hwritten.holds
        have hpos := hwritten.pos_eq
        rw [grownBlocks, ← hwritten.carrying.serving.cfg, ← hpos]
        rw [← hpos] at hholds
        exact FileMode.writing hholds }
  inv := hwritten.carrying.inv
  kept := hwritten.carrying.kept

/-- A call that writes starts from here. -/
theorem OpenFile.carrying (hopen : OpenFile base key committed others start array file own lfs)
    (hold : old ⊆ own) : Carrying lfs key others start old file file own lfs where
  serving := hopen.serving.here _
  inv := hopen.inv
  kept := hopen.kept
  old_sub := hold
  struct := ⟨rfl, rfl, rfl, rfl⟩

/-- The limits that a write at the position keeps. -/
structure Fitting (base : Lfs) (array : ByteFile) (file : Handle) (bytes : Bytes) : Prop where
  pos_le : array.pos ≤ array.data.length
  room : array.pos + bytes.length ≤ base.fileMax
  appending : file.flags.append = true → file.ctz.size ≤ array.pos

/-- A file that is not inline, and has a place for the first byte. -/
theorem OpenFile.put_of_place (hsetting : Setting base key committed others start)
    (hopen : OpenFile base key committed others start array file own lfs)
    (hfitting : Fitting base array file bytes) (hpos : 0 < bytes.length)
    (hinline : file.flags.inline = false)
    (hplace : Completes lfs (makePlace key lfs.cfg.blockSize)
      (fun _ => HasPlace lfs key committed others start old file (array.put bytes).data
        (array.put bytes).pos array.pos) lfs) :
    Completes base (lfsFileFlushedwrite key bytes) (fun _ lfs' => ∃ file' own',
      OpenFile base key committed others start (array.put bytes) file' own' lfs' ∧
        file'.flags.reading = false) lfs := by
  have hsetting' := hsetting.later hopen.serving
  have hfile := hsetting.limits.file_le
  have hmax : lfsFileMax < 2 ^ 32 := by norm_num [lfsFileMax]
  have hroom := hfitting.room
  have hlength := hopen.represents.length_le
  rw [hopen.serving.fileMax] at hlength
  have hwrite := lfsFileFlushedwrite_written hsetting' hopen.represents.type_eq
    (hopen.serving.here others) hinline hplace hpos (by omega) getD_spliced_inside
  apply (hwrite.widen hopen.serving.suffix).imp
  intro _ lfs' h
  obtain ⟨file', blocks, hwritten⟩ := h
  refine ⟨file', _, hwritten.openFile hopen.serving
    ⟨hopen.represents.type_eq, hopen.represents.append_eq⟩ ⟨hroom, ?_⟩ ?_, hwritten.holds.unread⟩
  · change (spliced array.data array.pos bytes).length ≤ _
    rw [length_spliced]
    exact max_le hroom hlength
  · exact fun happend => (hfitting.appending happend).trans (Nat.le_add_right _ _)

theorem ListedFile.put (hsetting : Setting base key committed others start)
    (hopen : OpenFile base key committed others start array file own lfs)
    (hfile : ListedFile lfs committed file array.data own blocks)
    (hfitting : Fitting base array file bytes) (hpos : 0 < bytes.length)
    (hunread : file.flags.reading = false) :
    Completes base (lfsFileFlushedwrite key bytes) (fun _ lfs' => ∃ file' own',
      OpenFile base key committed others start (array.put bytes) file' own' lfs' ∧
        file'.flags.reading = false) lfs := by
  have hat := hopen.represents.pos_eq
  have hle := hfitting.pos_le
  have hstarting := hfile.starting hunread (hat ▸ hle) bytes
  have hlimits := hsetting.limits.file_le
  have hmax : lfsFileMax < 2 ^ 32 := by norm_num [lfsFileMax]
  have hroom := hfitting.room
  have hplace := makePlace_starting (hopen.carrying (List.Subset.refl own))
    (hsetting.later hopen.serving) hstarting (by omega) hopen.represents.type_eq
  rw [hat] at hplace
  exact hopen.put_of_place hsetting hfitting hpos hfile.inline hplace

theorem WritingFile.put (hsetting : Setting base key committed others start)
    (hopen : OpenFile base key committed others start array file
      (old ++ listedBlocks lfs.cfg.blockSize file.pos blocks) lfs)
    (hfile : WritingFile lfs committed others file array.data old blocks file.pos)
    (hfitting : Fitting base array file bytes) (hpos : 0 < bytes.length) :
    Completes base (lfsFileFlushedwrite key bytes) (fun _ lfs' => ∃ file' own',
      OpenFile base key committed others start (array.put bytes) file' own' lfs' ∧
        file'.flags.reading = false) lfs := by
  have hat := hopen.represents.pos_eq
  have hle := hfitting.pos_le
  have hlimits := hsetting.limits.file_le
  have hmax : lfsFileMax < 2 ^ 32 := by norm_num [lfsFileMax]
  have hroom := hfitting.room
  have hlength := hfile.length_eq
  have hholds : WritingFile lfs committed others file (array.put bytes).data old blocks
      (array.put bytes).pos := by
    apply hfile.restate
    · change file.pos ≤ array.pos + bytes.length
      omega
    · change (spliced array.data array.pos bytes).length =
        max (array.pos + bytes.length) file.ctz.size
      rw [length_spliced]
      omega
    · exact fun p hp => getD_spliced_before (hat ▸ hp)
    · exact fun p hp _ => getD_spliced_behind hp
  have hwritten : WrittenFile lfs key committed others start old file (array.put bytes).data
      (array.put bytes).pos array.pos file blocks lfs :=
    { carrying := by
        have hcarrying := hopen.carrying (List.subset_append_left old _)
        rw [hat] at hcarrying
        exact hcarrying
      holds := hholds
      pos_eq := hat }
  exact hopen.put_of_place hsetting hfitting hpos hfile.inline
    (makePlace_written hwritten (hsetting.later hopen.serving) (by omega)
      hopen.represents.type_eq)

/-! ## Data in the cache -/

/-- The file, about to be written in its cache. -/
def Handle.startInline (file : Handle) : Handle :=
  { file with block := blockInline, off := file.pos, flags := { file.flags with writing := true } }

theorem Handle.startInline_eq (hwriting : file.flags.writing = true) (hoff : file.off = file.pos)
    (hblock : file.block = blockInline) : file.startInline = file :=
  calc file.startInline
      = { file with
          block := file.block, off := file.off,
          flags := { file.flags with writing := file.flags.writing } } := by
        rw [Handle.startInline, hoff, hblock, hwriting]
    _ = file := rfl

/-- The file, with bytes written in its cache. -/
def Handle.putInline (file : Handle) (bytes : Bytes) : Handle :=
  { file with
    cache := overwrite file.cache file.off bytes
    pos := file.pos + bytes.length
    off := file.off + bytes.length }

theorem makePlace_inline (hsetting : Setting base key committed others start)
    (hopen : OpenFile base key committed others start array file own lfs)
    (hfile : InlineFile lfs file array.data) :
    Completes base (makePlace key base.cfg.blockSize)
      (fun _ lfs' => Serving base key others file.startInline lfs' ∧
        AllocInv (others ++ own) lfs') lfs := by
  have hlimits := hopen.limits hsetting.limits
  have hat := hopen.represents.pos_eq
  have hcfg := hopen.serving.cfg
  apply hopen.serving.handle hsetting.present
  rw [if_pos hfile.inline]
  apply Completes.ite
  · intro _
    have hmoved := hopen.serving.modify
      (fun file => { file with block := blockInline, off := file.pos }) hopen.serving.key_eq
    have hstarted := hmoved.modify
      (fun file => { file with flags := { file.flags with writing := true } })
      hopen.serving.key_eq
    exact ⟨hstarted, hopen.inv.congr rfl rfl rfl⟩
  · intro hstay
    obtain ⟨hwriting, -⟩ := not_or.mp hstay
    obtain ⟨hoff, hblock⟩ := hfile.writing (not_not.mp hwriting)
    rw [Handle.startInline_eq (not_not.mp hwriting) hoff hblock]
    exact Completes.pure ⟨hopen.serving, hopen.inv⟩

theorem writeTurn_inline (hpresent : ∃ file ∈ base.mlist, file.key = key)
    (hserving : Serving base key others file lfs) (hinv : AllocInv used lfs)
    (hinline : file.flags.inline = true) (hroom : file.off + bytes.length ≤ base.cfg.blockSize) :
    Completes base (writeTurn key base.cfg.blockSize bytes)
      (fun diff lfs' => diff = bytes.length ∧ Serving base key others (file.putInline bytes) lfs' ∧
        AllocInv used lfs') lfs := by
  apply hserving.handle hpresent
  have hdiff : min bytes.length (base.cfg.blockSize - file.off) = bytes.length := by omega
  dsimp only
  rw [hdiff, List.take_length, show retryFuel = (2 ^ 32 + 1) + 1 from rfl, progFile, bind_assoc]
  apply hserving.handle hpresent
  rw [if_pos hinline]
  have hcached := hserving.modify
    (fun file => { file with cache := overwrite file.cache file.off bytes }) hserving.key_eq
  have hmoved := hcached.modify (fun file =>
    { file with pos := file.pos + bytes.length, off := file.off + bytes.length }) hserving.key_eq
  exact ⟨rfl, hmoved.checkpoint, hinv.checkpoint.congr rfl rfl rfl⟩

theorem InlineFile.putInline (hfile : InlineFile lfs file array.data)
    (hunread : file.flags.reading = false) (hat : file.pos = array.pos)
    (hpos : array.pos ≤ array.data.length) (hsome : 0 < bytes.length)
    (hfits : max (file.pos + bytes.length) file.ctz.size ≤ lfs.inlineMax) :
    InlineFile lfs (file.startInline.putInline bytes) (array.put bytes).data where
  inline := hfile.inline
  length_eq := by
    have hlength := hfile.length_eq
    change (spliced array.data array.pos bytes).length =
      max (file.pos + bytes.length) file.ctz.size
    rw [length_spliced]
    rw [Handle.length] at hlength
    split at hlength <;> omega
  length_le := by
    have hlength := hfile.length_eq
    change (spliced array.data array.pos bytes).length ≤ _
    rw [length_spliced]
    rw [Handle.length] at hlength
    split at hlength <;> omega
  byte p hp := by
    change (overwrite file.cache file.pos bytes).getD p 0 =
      (spliced array.data array.pos bytes).getD p 0
    rw [getD_overwrite, getD_spliced, hat]
    by_cases hinside : array.pos ≤ p ∧ p < array.pos + bytes.length
    · rw [if_pos hinside, if_pos hinside]
    · rw [if_neg hinside, if_neg hinside]
      apply hfile.byte
      change p < (spliced array.data array.pos bytes).length at hp
      rw [length_spliced] at hp
      omega
  reading hreading := absurd (hunread.symm.trans hreading) Bool.false_ne_true
  writing _ := ⟨rfl, rfl⟩
  started _ := lt_of_lt_of_le hsome (Nat.le_add_left _ _)
  apart hreading := absurd (hunread.symm.trans hreading) Bool.false_ne_true
  head_eq := hfile.head_eq

/-- Data that fit stay in the cache. -/
theorem InlineFile.put (hsetting : Setting base key committed others start)
    (hopen : OpenFile base key committed others start array file [] lfs)
    (hfile : InlineFile lfs file array.data) (hfitting : Fitting base array file bytes)
    (hpos : 0 < bytes.length) (hunread : file.flags.reading = false)
    (hfits : ¬lfs.inlineMax < max (file.pos + bytes.length) file.ctz.size) :
    Completes base (lfsFileFlushedwrite key bytes) (fun _ lfs' => ∃ file' own',
      OpenFile base key committed others start (array.put bytes) file' own' lfs' ∧
        file'.flags.reading = false) lfs := by
  have hat := hopen.represents.pos_eq
  have hne := List.ne_nil_of_length_pos hpos
  have hinline := hsetting.limits.inline_block
  have hroom := hfitting.room
  have hlength := hopen.represents.length_le
  rw [hopen.serving.inlineMax] at hfits
  rw [hopen.serving.fileMax] at hlength
  rw [lfsFileFlushedwrite, if_neg hne]
  apply Completes.get_bind
  apply hopen.serving.handle hsetting.present
  rw [if_neg fun h => hfits (hopen.serving.inlineMax ▸ h.2), lfsFileFlushedwriteGo_turn _ hne]
  apply Completes.get_bind
  rw [hopen.serving.cfg]
  apply (makePlace_inline hsetting hopen hfile).bind
  intro _ placed h
  obtain ⟨hserving, hinv⟩ := h
  have hinside : file.startInline.off + bytes.length ≤ base.cfg.blockSize := by
    change file.pos + bytes.length ≤ _
    omega
  apply (writeTurn_inline hsetting.present hserving hinv hfile.inline hinside).bind
  intro diff lfs' h
  obtain ⟨rfl, hserving', hinv'⟩ := h
  rw [List.drop_length, lfsFileFlushedwriteGo_nil (by omega)]
  apply Completes.pure
  have hsame : SameFs lfs lfs' := by
    have heq := hserving'.eq
    have heq' := hopen.serving.eq
    constructor
    rw [heq, heq']
  have hput := (hfile.putInline hunread hat hfitting.pos_le hpos (by
    rw [hopen.serving.inlineMax]
    exact not_lt.mp hfits)).frame hsame
  refine ⟨file.startInline.putInline bytes, [], ?_, hunread⟩
  exact
    { serving := hserving'
      represents :=
        { type_eq := hopen.represents.type_eq
          append_eq := hopen.represents.append_eq
          pos_eq := congrArg (· + bytes.length) hat
          pos_le := by
            rw [hserving'.fileMax]
            change file.pos + bytes.length ≤ _
            omega
          length_le := by
            rw [hserving'.fileMax]
            change (spliced array.data array.pos bytes).length ≤ _
            rw [length_spliced]
            exact max_le hroom hlength
          appending := fun happend _ =>
            ((hfitting.appending happend).trans hat.ge).trans (Nat.le_add_right _ _)
          mode := FileMode.inline hput }
      inv := hinv'
      kept := fun block hmem => absurd hmem List.not_mem_nil }

/-! ## Data that no longer fit -/

/-- A block behind the device is never handed out. -/
theorem AllocInv.outside (hinv : AllocInv used lfs) {block : Block}
    (hblock : lfs.blockCount ≤ block) : AllocInv (block :: used) lfs := by
  apply hinv.cons
  intro hahead
  obtain ⟨k, hk, heq⟩ := hahead
  have hlt := Nat.mod_lt (lfs.lookahead.start + lfs.lookahead.next + k) hinv.valid.pos
  rw [← heq] at hlt
  exact absurd hblock (not_le.mpr hlt)

/-- The file in a block of its own, its cache copied. -/
def Handle.outlined (file : Handle) (nblock : Block) : Handle :=
  { file with
    block := nblock
    off := file.pos
    flags := { file.flags with writing := true, inline := false } }

/-- What a traversal reports of the struct of an inline file, once the file is outlined. -/
def staleBlocks (file : Handle) : List Block :=
  if file.flags.dirty then if file.ctz.size = 0 then [] else [file.ctz.head] else []

theorem mem_staleBlocks {block : Block} (hmem : block ∈ staleBlocks file) :
    block = file.ctz.head := by
  rw [staleBlocks] at hmem
  split at hmem
  · split at hmem
    · exact absurd hmem List.not_mem_nil
    · exact List.mem_singleton.mp hmem
  · exact absurd hmem List.not_mem_nil

/-- The list of an outlined file begins in its new block. -/
theorem InlineFile.outlined (hlimits : BlockLimits lfs) (hfile : InlineFile lfs file array.data)
    (hat : file.pos = array.pos) (hpos : array.pos ≤ array.data.length)
    (hword : array.data.length + 1 < 2 ^ 32) (hunread : file.flags.reading = false)
    (hgrows : lfs.inlineMax < max (file.pos + bytes.length) file.ctz.size) {nblock : Block}
    (hsame : SameFs lfs lfs') (hdevice : nblock < lfs.blockCount) (hfree : nblock ∉ others)
    (hgood : file.pos ≠ 0 → lfs.progBad nblock = false ∧
      diskBytes lfs'.disk nblock = slice file.cache 0 file.pos) :
    ReadyFile lfs' committed others (file.outlined nblock) (array.put bytes).data
      (staleBlocks file) (fun _ => nblock) (array.put bytes).pos := by
  have hblock := hlimits.block_ge
  have hblock' : 128 ≤ lfs'.cfg.blockSize := by
    rw [hsame.cfg]
    exact hblock
  have hinline := hlimits.inline_block
  have hle := hfile.length_le
  have hlength := hfile.length_eq
  have hsize : file.ctz.size ≤ array.data.length := by
    rw [Handle.length] at hlength
    split at hlength <;> omega
  have hstop : file.ctz.size < array.pos + bytes.length := by omega
  apply readyFile_first hblock'
  · rfl
  · rfl
  · exact hunread
  · change (spliced array.data array.pos bytes).length =
      max (array.pos + bytes.length) file.ctz.size
    rw [length_spliced]
    rw [Handle.length] at hlength
    split at hlength <;> omega
  · constructor
    · intro hdirty
      have hindex : lastIndex lfs'.cfg.blockSize file.ctz.size = 0 := by
        rw [lastIndex, hsame.cfg, lfsCtzIndex_first hblock (by omega) (by omega)]
      have hstale : staleBlocks file = if file.ctz.size = 0 then [] else [file.ctz.head] :=
        if_pos hdirty
      change Traverses lfs' file.ctz.head file.ctz.size (staleBlocks file)
      rw [hstale]
      exact Traverses.single hindex
    · exact fun hclean => if_neg fun hdirty => Bool.false_ne_true (hclean.symm.trans hdirty)
    · intro hlt
      change array.pos + bytes.length < file.ctz.size at hlt
      omega
  · intro h
    rw [hsame.blockCount] at h
    exact absurd hdevice (not_lt.mpr h.2)
  · intro hmem
    apply (List.mem_append.mp hmem).elim hfree
    intro hstale
    have heq := mem_staleBlocks hstale
    have hcount := hlimits.count_le
    rw [hfile.head_eq] at heq
    change nblock = blockInline at heq
    rw [heq] at hdevice
    exact absurd hcount (not_le.mpr hdevice)
  · rw [hsame.cfg]
    change file.pos < _
    omega
  · change file.pos + 1 < _
    omega
  · rfl
  · intro p hp
    change p < file.pos at hp
    change (diskBytes lfs'.disk nblock).getD p 0 = (spliced array.data array.pos bytes).getD p 0
    rw [(hgood (by omega)).2, getD_slice, if_pos hp, Nat.zero_add, getD_spliced_before (by omega)]
    exact hfile.byte p (by omega)
  · intro hp
    change 0 < file.pos at hp
    rw [hsame.progBad]
    exact (hgood (by omega)).1

/-- `lfs_file_outline` leaves a place for the next byte in a block of the file's own. -/
theorem InlineFile.outlines (hsetting : Setting base key committed others start)
    (hopen : OpenFile base key committed others start array file [] lfs)
    (hfile : InlineFile lfs file array.data) (hfitting : Fitting base array file bytes)
    (hunread : file.flags.reading = false)
    (hgrows : lfs.inlineMax < max (file.pos + bytes.length) file.ctz.size) :
    Completes lfs (lfsFileOutline key) (fun _ lfs' => ∃ nblock,
      Serving lfs key others (file.outlined nblock) lfs' ∧
      Placed lfs' key committed others start (staleBlocks file) (file.outlined nblock)
        (array.put bytes).data (array.put bytes).pos array.pos (file.outlined nblock)
        (fun _ => nblock) lfs') lfs := by
  have hsetting' := hsetting.later hopen.serving
  have hlimits := hsetting'.limits
  have hat := hopen.represents.pos_eq
  have hpos := hfitting.pos_le
  have hle := hfile.length_le
  have hmax := hlimits.file_le
  have hlength := hopen.represents.length_le
  have hfileMax : lfsFileMax + 1 < 2 ^ 32 := by norm_num [lfsFileMax]
  have hcarrying := ((hopen.carrying (List.Subset.refl [])).modify
    (fun file => { file with off := file.pos }) rfl ⟨rfl, rfl, rfl, rfl⟩).checkpoint
  obtain ⟨used, hreported, hinv, hsub⟩ := hcarrying.allocates hsetting'
    (pends_inline hfile.inline)
  have hcache := hlimits.inline_cache
  have hrelocates := hcarrying.relocates hsetting' hreported hinv hsub
    fun _ => ⟨hfile.inline, show file.pos ≤ lfs.cfg.cacheSize by omega⟩
  rw [lfsFileOutline]
  apply Serving.modify_bind
  apply completes_ckpoint
  apply (hrelocates.widen List.suffix_rfl).bind
  intro _ after h
  obtain ⟨nblock, middle, hgranted, rfl, -, hwritten⟩ := h
  apply Completes.modify
  have hbegun := (hcarrying.granted hsetting' hsub hgranted (List.nil_subset [nblock])
    fun block hmem => Or.inl (List.mem_singleton.mp hmem)).modify
      (fun file => file.relocated nblock) rfl ⟨rfl, rfl, rfl, rfl⟩
  have houtlined := hbegun.modify
    (fun file => { file with flags := { file.flags with inline := false } }) rfl
      ⟨rfl, rfl, rfl, rfl⟩
  have hserving := houtlined.serving.mono (List.subset_append_left others [])
  have hfree : nblock ∉ others := fun hmem =>
    hgranted.free (hsub (List.mem_append_left _ hmem))
  refine ⟨nblock, hserving, ?_, hfile.outlined hlimits hat hpos (by omega) hunread hgrows
    hserving.sameFs hgranted.lt hfree hwritten, hat⟩
  constructor
  · exact hserving.here _
  · have hcount := (hserving.limits hlimits).count_le
    apply (houtlined.inv.outside hcount).mono
    apply List.append_subset.mpr
    constructor
    · exact fun block hmem => List.mem_cons_of_mem _ (List.mem_append_left _ hmem)
    · intro block hmem
      apply (List.mem_append.mp hmem).elim
      · intro hstale
        rw [mem_staleBlocks hstale, hfile.head_eq]
        exact List.mem_cons_self
      · intro hnew
        rw [mem_listedBlocks_first hnew]
        exact List.mem_cons_of_mem _ (List.mem_append_right _ (List.mem_singleton_self nblock))
  · intro block hmem
    apply (List.mem_append.mp hmem).elim
    · intro hstale
      rw [mem_staleBlocks hstale, hfile.head_eq]
      exact Or.inl hsetting.inline_kept
    · intro hnew
      rw [mem_listedBlocks_first hnew]
      exact houtlined.kept nblock (List.mem_singleton_self nblock)
  · exact List.subset_append_left _ _
  · exact ⟨rfl, rfl, rfl, rfl⟩

/-- Data that outgrow the limit go to blocks. -/
theorem InlineFile.put_outlined (hsetting : Setting base key committed others start)
    (hopen : OpenFile base key committed others start array file [] lfs)
    (hfile : InlineFile lfs file array.data) (hfitting : Fitting base array file bytes)
    (hpos : 0 < bytes.length) (hunread : file.flags.reading = false)
    (hgrows : lfs.inlineMax < max (file.pos + bytes.length) file.ctz.size) :
    Completes base (lfsFileFlushedwrite key bytes) (fun _ lfs' => ∃ file' own',
      OpenFile base key committed others start (array.put bytes) file' own' lfs' ∧
        file'.flags.reading = false) lfs := by
  have hat := hopen.represents.pos_eq
  have hlimits := hsetting.limits.file_le
  have hmax : lfsFileMax < 2 ^ 32 := by norm_num [lfsFileMax]
  have hroom := hfitting.room
  have hlength := hopen.represents.length_le
  rw [hopen.serving.fileMax] at hlength
  rw [lfsFileFlushedwrite, if_neg (List.ne_nil_of_length_pos hpos)]
  apply Completes.get_bind
  apply hopen.serving.handle hsetting.present
  rw [if_pos ⟨hfile.inline, hgrows⟩]
  have houtlines := hfile.outlines hsetting hopen hfitting hunread hgrows
  apply (completes_orErr (houtlines.widen hopen.serving.suffix)).bind
  intro _ outlined h
  obtain ⟨nblock, hserving, hplaced⟩ := h
  have hserving' := hopen.serving.trans hserving
  have hsetting' := hsetting.later hserving'
  have hplace := makePlace_placed hplaced hsetting' (by omega)
  have hword : array.pos + bytes.length < 2 ^ 32 := by omega
  have hfuel : bytes.length < 2 * bytes.length + 1 := by omega
  have htype : (file.outlined nblock).type = .reg := hopen.represents.type_eq
  have hwrite := lfsFileFlushedwriteGo_written hsetting' htype _ rfl hplace hpos hfuel hword
    getD_spliced_inside
  apply (hwrite.widen hserving'.suffix).imp
  intro _ lfs' h
  obtain ⟨file', blocks, hwritten⟩ := h
  refine ⟨file', _, hwritten.openFile hserving'
    ⟨hopen.represents.type_eq, hopen.represents.append_eq⟩ ⟨hroom, ?_⟩ ?_, hwritten.holds.unread⟩
  · change (spliced array.data array.pos bytes).length ≤ _
    rw [length_spliced]
    exact max_le hroom hlength
  · exact fun happend => (hfitting.appending happend).trans (Nat.le_add_right _ _)

/-- `lfs_file_flushedwrite` puts the bytes at the position, up to the end of the data. -/
theorem lfsFileFlushedwrite_puts (hsetting : Setting base key committed others start)
    (hopen : OpenFile base key committed others start array file own lfs)
    (hfitting : Fitting base array file bytes) (hunread : file.flags.reading = false) :
    Completes base (lfsFileFlushedwrite key bytes) (fun _ lfs' => ∃ file' own',
      OpenFile base key committed others start (array.put bytes) file' own' lfs' ∧
        file'.flags.reading = false) lfs := by
  by_cases hne : bytes = []
  · subst hne
    have hput : array.put [] = array := by
      have hdata : spliced array.data array.pos [] = array.data := by
        have hpos := hfitting.pos_le
        apply bytes_ext
        · rw [length_spliced]
          exact max_eq_right hpos
        · intro i _
          rw [getD_spliced, if_neg (by simp)]
      rw [ByteFile.put, hdata]
      rfl
    rw [hput, lfsFileFlushedwrite, if_pos rfl]
    exact Completes.pure ⟨file, own, hopen, hunread⟩
  · have hpos := List.length_pos_of_ne_nil hne
    have hmode := hopen.represents.mode
    cases hmode with
    | inline hfile =>
        by_cases hgrows : lfs.inlineMax < max (file.pos + bytes.length) file.ctz.size
        · exact hfile.put_outlined hsetting hopen hfitting hpos hunread hgrows
        · exact hfile.put hsetting hopen hfitting hpos hunread hgrows
    | listed hfile => exact hfile.put hsetting hopen hfitting hpos hunread
    | writing hfile => exact hfile.put hsetting hopen hfitting hpos

end Littlefs
