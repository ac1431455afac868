import Littlefs.FileWrites

/-!
# Changing the length of an open file

A file that is cut off below the inline limit moves back into its cache; a longer one keeps
the front of its list.  A file that grows gets zeros, and the position stays where it was.
-/

namespace Littlefs

open Program SkipLists

variable {base lfs lfs' : Lfs} {key size : ℕ} {file : Handle} {data bytes : Bytes}
  {committed others start old own : List Block} {blocks : ℕ → Block} {array : ByteFile}

/-- The array with another length. -/
def ByteFile.cut (array : ByteFile) (size : ℕ) : ByteFile :=
  { array with data := array.data.takeD size 0 }

theorem length_cut : (array.cut size).data.length = size := List.takeD_length _ _ _

/-! ## Back into the cache -/

/-- At the beginning of a file nothing is written. -/
theorem FileMode.idle_of_start (hmode : FileMode lfs committed others file data own)
    (hzero : file.pos = 0) : file.flags.writing = false := by
  cases hmode with
  | inline hfile =>
      rw [Bool.eq_false_iff]
      intro hwriting
      exact absurd (hfile.started hwriting) (by omega)
  | listed hfile => exact hfile.idle
  | writing hfile => exact absurd hfile.list.pos (by omega)

/-- The file with its data inline. -/
def Handle.reverted (file : Handle) (size : ℕ) (data : Bytes) : Handle :=
  { file with
    ctz := { head := blockInline, size := size }
    flags := { file.flags with dirty := true, reading := true, inline := true }
    cache := overwrite file.cache 0 (slice data 0 size) }

theorem InlineFile.reverted (hidle : file.flags.writing = false) (hpos : size ≤ file.pos)
    (hinline : size ≤ lfs.inlineMax) :
    InlineFile lfs (file.reverted size (data.take size)) (data.takeD size 0) where
  inline := rfl
  length_eq := by
    rw [List.takeD_length]
    exact (Handle.length_settled
      (show (file.reverted size (data.take size)).flags.writing = false from hidle)).symm
  length_le := by
    rw [List.takeD_length]
    exact hinline
  byte p hp := by
    rw [List.takeD_length] at hp
    change (overwrite file.cache 0 (slice (data.take size) 0 size)).getD p 0 = _
    rw [getD_overwrite, length_slice, if_pos (by omega), getD_slice, if_pos (by omega),
      getD_takeD_of_lt hp, Nat.zero_add, Nat.sub_zero, List.getD_eq_getElem?_getD,
      List.getElem?_take_of_lt hp, ← List.getD_eq_getElem?_getD]
  reading _ hlt := by
    rw [List.takeD_length] at hlt
    exact absurd hlt (not_lt.mpr hpos)
  writing hwriting := absurd (hidle.symm.trans hwriting) Bool.false_ne_true
  started hwriting := absurd (hidle.symm.trans hwriting) Bool.false_ne_true
  apart _ := hidle
  head_eq := rfl

theorem revertInline_reverts (hsetting : Setting base key committed others start)
    (hopen : OpenFile base key committed others start array file own lfs) (window : CacheWindow)
    (hsize : size < array.data.length) (hinline : size ≤ base.inlineMax) :
    Completes base (revertInline key window size) (fun _ lfs' => ∃ file' own',
      OpenFile base key committed others start ((array.cut size).atPos size) file' own' lfs')
      lfs := by
  have hlength := hopen.represents.length_le
  rw [hopen.serving.fileMax] at hlength
  apply (lfsFileSeek_start hsetting hopen window).bind
  intro _ middle h
  obtain ⟨file₀, own₀, hstarted⟩ := h
  have hlimits := hsetting.limits
  have hcache : size ≤ middle.cfg.cacheSize := by
    have hle := hlimits.inline_cache
    rw [hstarted.serving.cfg]
    omega
  have hidle := hstarted.represents.mode.idle_of_start hstarted.represents.pos_eq
  apply Completes.get_bind
  rw [if_neg (not_lt.mpr hcache)]
  apply (lfsFileFlushedreadOpen_reads hsetting.toSurroundings hstarted hidle).bind
  intro bytes lfs' h
  obtain ⟨hbytes, file', hread, hidle'⟩ := h
  have hbytes' : bytes = array.data.take size := hbytes
  have hcount : bytes.length = size := by
    rw [hbytes', List.length_take]
    omega
  have hat : file'.pos = size := by
    rw [hread.represents.pos_eq, hcount]
    exact Nat.zero_add size
  have hreverted : Represents lfs' committed others (file'.reverted size bytes)
      ((array.cut size).atPos size) [] :=
    { type_eq := hread.represents.type_eq
      append_eq := hread.represents.append_eq
      pos_eq := hat
      pos_le := hread.represents.pos_le
      length_le := by
        rw [hread.serving.fileMax]
        exact length_cut.trans_le (by omega)
      appending := fun _ hwriting => absurd (hidle'.symm.trans hwriting) Bool.false_ne_true
      mode := by
        rw [hbytes']
        exact .inline (.reverted hidle' hat.ge (hread.serving.inlineMax ▸ hinline)) }
  have hdone := hread.modify (hread.limits hlimits).block_ge
    (fun file => file.reverted size bytes) rfl hreverted (List.nil_subset _)
  exact ⟨_, [], hdone⟩

/-! ## The front of a list -/

/-- The file with the front of its list. -/
def Handle.shrunk (file : Handle) (size : ℕ) (block : Block) : Handle :=
  { file with
    block := block
    pos := size
    ctz := { head := block, size := size }
    flags := { file.flags with dirty := true, reading := true } }

theorem ListedFile.shrunk (hblock : 128 ≤ lfs.cfg.blockSize)
    (hfile : ListedFile lfs committed file data old blocks) (hpos : 0 < size)
    (hsize : size < data.length) :
    ListedFile lfs committed (file.shrunk size (blocks (lastIndex lfs.cfg.blockSize size)))
      (data.takeD size 0) (listedBlocks lfs.cfg.blockSize size blocks) blocks := by
  have hlength := hfile.length_eq
  have hlt := hfile.list.lt
  have hlist := hfile.list.restrict hblock hpos (by omega)
  exact
    { inline := hfile.inline
      idle := hfile.idle
      length_eq := List.takeD_length _ _ _
      list := hlist
      covered := List.subset_append_right _ _
      byte := by
        intro p hp
        change p < size at hp
        rw [getD_takeD_of_lt hp]
        exact hfile.byte p (by omega)
      traverses := fun _ => hlist.traverses hblock
      clean := fun hclean => absurd hclean.symm Bool.false_ne_true
      reads :=
        { block_eq := by
            intro _ _ p hp hindex
            change p < size at hp
            change _ = (lfsCtzIndex lfs.cfg.blockSize size).1 at hindex
            have hle := lfsCtzIndex_mono hblock (show p ≤ size - 1 by omega)
              (show size - 1 < 2 ^ 32 by omega)
            have hge := lfsCtzIndex_mono hblock (show size - 1 ≤ size by omega)
              (show size < 2 ^ 32 by omega)
            have hsame : lastIndex lfs.cfg.blockSize size =
                (lfsCtzIndex lfs.cfg.blockSize p).1 := by
              rw [lastIndex]
              omega
            exact congrArg blocks hsame
          off_eq := fun _ _ hlt => absurd hlt (Nat.lt_irrefl size) } }

theorem shrinkList_shrinks (hsetting : Setting base key committed others start)
    (hopen : OpenFile base key committed others start array file own lfs)
    (hsize : size < array.data.length) (hinline : base.inlineMax < size) :
    Completes base (shrinkList key size) (fun _ lfs' => ∃ file' own',
      OpenFile base key committed others start ((array.cut size).atPos size) file' own' lfs')
      lfs := by
  apply (lfsFileFlush_settles hsetting hopen).bind
  intro _ middle h
  obtain ⟨file', own', hsettled, hunread, hidle⟩ := h
  have hlimits := hsettled.limits hsetting.limits
  have hlength := hsettled.represents.length_le
  apply hsettled.serving.handle hsetting.present
  have hmode := hsettled.represents.mode
  cases hmode with
  | inline hfile =>
      have hle := hfile.length_le
      rw [hsettled.serving.inlineMax] at hle
      omega
  | writing hfile => exact absurd (hidle.symm.trans hfile.writing) Bool.false_ne_true
  | @listed _ blocks hfile =>
      have hfind := hfile.list.find hlimits.block_ge
        (show size - 1 < file'.ctz.size by rw [← hfile.length_eq]; omega)
      apply completes_delivers hsettled.serving.suffix hfind
      intro lfs' hreads
      have hread := hsettled.reads hlimits.block_ge hreads
      have hsub : listedBlocks middle.cfg.blockSize size blocks ⊆ committed ++ own' := by
        intro block hmem
        obtain ⟨i, hi, rfl⟩ := mem_listedBlocks.mp hmem
        have hsize' := hfile.list.lt
        have hdata := hfile.length_eq
        have hindex : lastIndex middle.cfg.blockSize size ≤
            lastIndex middle.cfg.blockSize file'.ctz.size :=
          lfsCtzIndex_mono hlimits.block_ge (by omega) (by omega)
        exact hfile.covered (mem_listedBlocks.mpr ⟨i, hi.trans hindex, rfl⟩)
      have hshrunk := (hfile.shrunk hlimits.block_ge (by omega) hsize).frame hlimits.block_ge
        (show SameFs middle { lfs' with
          mlist := updateHandle lfs'.mlist key fun file =>
            file.shrunk size (blocks (lastIndex middle.cfg.blockSize size)) } from
              ⟨by rw [hreads.eq]⟩)
        fun _ _ => by rw [hreads.eq]
      apply Completes.modify
      refine ⟨file'.shrunk size (blocks (lastIndex middle.cfg.blockSize size)),
        listedBlocks middle.cfg.blockSize size blocks,
        hread.serving.modify
          (fun file => file.shrunk size (blocks (lastIndex middle.cfg.blockSize size)))
          hread.serving.key_eq, ?_, ?_, ?_⟩
      · exact
          { type_eq := hread.represents.type_eq
            append_eq := hread.represents.append_eq
            pos_eq := rfl
            pos_le := by
              change size ≤ lfs'.fileMax
              rw [hread.serving.fileMax, ← hsettled.serving.fileMax]
              omega
            length_le := by
              change (array.data.takeD size 0).length ≤ lfs'.fileMax
              rw [List.takeD_length, hread.serving.fileMax, ← hsettled.serving.fileMax]
              omega
            appending := fun _ hwriting => absurd (hidle.symm.trans hwriting) Bool.false_ne_true
            mode := .listed hshrunk }
      · have hinv : AllocInv (others ++ listedBlocks middle.cfg.blockSize size blocks) lfs' := by
          apply hread.inv.mono
          apply List.append_subset.mpr
          constructor
          · exact List.subset_append_left _ _
          · intro block hmem
            apply (List.mem_append.mp (hsub hmem)).elim
            · exact fun h => List.mem_append_left _ (hsetting.committed_sub h)
            · exact fun h => List.mem_append_right _ h
        exact hinv.congr rfl rfl rfl
      · intro block hmem
        apply (List.mem_append.mp (hsub hmem)).elim
        · exact fun h => Or.inl (hsetting.committed_kept h)
        · exact fun h => hsettled.kept block h

/-! ## Zeros behind the end -/

theorem ByteFile.writePos_end (hend : array.pos = array.data.length) :
    array.writePos = array.pos := by
  rw [ByteFile.writePos]
  split
  · omega
  · rfl

/-- The loop lengthens the file with zeros. -/
theorem writeZeros_writes (hsetting : Setting base key committed others start)
    (hmax : size ≤ base.fileMax) (fuel : ℕ)
    (hopen : OpenFile base key committed others start array file own lfs)
    (hend : array.pos = array.data.length) (hle : array.pos ≤ size)
    (hfuel : size - array.pos < fuel) :
    Completes base (writeZeros key size fuel) (fun _ lfs' => ∃ file' own',
      OpenFile base key committed others start (array.fill size) file' own' lfs') lfs := by
  induction fuel generalizing array file own lfs with
  | zero => exact absurd hfuel (Nat.not_lt_zero _)
  | succ fuel ih =>
      have hat := hopen.represents.pos_eq
      rw [writeZeros]
      apply hopen.serving.handle hsetting.present
      apply Completes.ite
      · intro hlt
        have hstart := ByteFile.writePos_end hend
        have hroom : array.writePos + [0].length ≤ base.fileMax := by
          rw [hstart, List.length_singleton]
          omega
        have hwrite := lfsFileWrite_writes hsetting hopen hroom
        rw [hstart, show array.atPos array.pos = array from rfl] at hwrite
        apply hwrite.bind
        intro _ lfs' h
        obtain ⟨file', own', hput⟩ := h
        have hpos : (array.put [0]).pos = array.pos + 1 := rfl
        have hlength : (array.put [0]).data.length = array.pos + 1 := by
          change (spliced array.data array.pos [0]).length = _
          rw [length_spliced, List.length_singleton]
          omega
        have hnext := ih hput (hpos.trans hlength.symm) (by omega) (by omega)
        rw [ByteFile.fill_put hend] at hnext
        exact hnext
      · intro hge
        have hpos : size = array.pos := by omega
        rw [hpos, ByteFile.fill_self hend]
        exact Completes.pure ⟨file, own, hopen⟩

theorem growFile_grows (hsetting : Setting base key committed others start)
    (hopen : OpenFile base key committed others start array file own lfs) (window : CacheWindow)
    (hsize : array.data.length < size) (hmax : size ≤ base.fileMax) :
    Completes base (growFile key window array.data.length size) (fun _ lfs' => ∃ file' own',
      OpenFile base key committed others start ((array.cut size).atPos size) file' own' lfs')
      lfs := by
  have htarget : array.target 0 lfsSeekEnd = array.data.length := add_zero _
  have hseek := lfsFileSeek_seeks hsetting hopen window 0 lfsSeekEnd
    (htarget ▸ Int.natCast_nonneg _) (by rw [htarget]; omega)
  apply hseek.bind
  intro n middle h
  obtain ⟨hn, file', own', hmoved⟩ := h
  rw [htarget, Int.toNat_natCast] at hn
  rw [hn] at hmoved
  have hzeros := writeZeros_writes hsetting hmax (size - array.data.length + 1) hmoved rfl hsize.le
    (Nat.lt_succ_self _)
  exact hzeros

/-! ## Truncating -/

/-- The part of a truncation in front of the last seek. -/
def changeLength (key : ℕ) (first last : CacheWindow) (oldsize inlineMax size : ℕ) :
    FsM CacheWindow :=
  if size < oldsize then
    if size ≤ inlineMax then revertInline key first size
    else do
      shrinkList key size
      pure last
  else if oldsize < size then do
    growFile key first oldsize size
    pure last
  else pure last

theorem lfsFileTruncate_parts (key : ℕ) (first last : CacheWindow) (size : ℕ) :
    lfsFileTruncate key first last size = (do
      let lfs ← get
      if lfs.fileMax < size then
        failWith .invalid
      let file ← getHandle key
      let window ← changeLength key first last file.length lfs.inlineMax size
      let _ ← lfsFileSeek key window (asSigned file.pos) lfsSeekSet) := by
  simp only [lfsFileTruncate, changeLength, ite_bind, bind_assoc, pure_bind]

theorem changeLength_changes (hsetting : Setting base key committed others start)
    (hopen : OpenFile base key committed others start array file own lfs)
    (first last : CacheWindow) (hmax : size ≤ base.fileMax) :
    Completes base (changeLength key first last array.data.length base.inlineMax size)
      (fun _ lfs' => ∃ pos file' own',
        OpenFile base key committed others start ((array.cut size).atPos pos) file' own' lfs')
      lfs := by
  apply Completes.ite
  · intro hless
    apply Completes.ite
    · intro hinline
      apply (revertInline_reverts hsetting hopen first hless hinline).imp
      exact fun _ lfs' h => ⟨size, h⟩
    · intro hbig
      apply (shrinkList_shrinks hsetting hopen hless (not_le.mp hbig)).bind
      exact fun _ lfs' h => Completes.pure ⟨size, h⟩
  · intro hnotless
    apply Completes.ite
    · intro hmore
      apply (growFile_grows hsetting hopen first hmore hmax).bind
      exact fun _ lfs' h => Completes.pure ⟨size, h⟩
    · intro hnotmore
      have hsame : array.data.length = size := by omega
      have hcut : (array.cut size).atPos array.pos = array := by
        have hdata : array.data.takeD size 0 = array.data := by
          apply bytes_ext ((List.takeD_length _ _ _).trans hsame.symm)
          intro i hi
          rw [List.takeD_length] at hi
          exact getD_takeD_of_lt hi
        rw [ByteFile.cut, hdata]
        rfl
      exact Completes.pure ⟨array.pos, file, own, hcut.symm ▸ hopen⟩

/-- `lfs_file_truncate_` changes the length, and the position stays. -/
theorem lfsFileTruncate_truncates (hsetting : Setting base key committed others start)
    (hopen : OpenFile base key committed others start array file own lfs)
    (first last : CacheWindow) (hmax : size ≤ base.fileMax) :
    Completes base (lfsFileTruncate key first last size) (fun _ lfs' => ∃ file' own',
      OpenFile base key committed others start (array.cut size) file' own' lfs') lfs := by
  obtain ⟨-, hpos, -⟩ := hopen.words hsetting
  have hat := hopen.represents.pos_eq
  have hle := hopen.represents.pos_le
  rw [hopen.serving.fileMax] at hle
  rw [lfsFileTruncate_parts]
  apply Completes.get_bind
  rw [hopen.serving.fileMax, hopen.serving.inlineMax, if_neg (not_lt.mpr hmax)]
  apply hopen.serving.handle hsetting.present
  rw [← hopen.represents.mode.length_eq]
  apply (changeLength_changes hsetting hopen first last hmax).bind
  intro window middle h
  obtain ⟨pos, file', own', hchanged⟩ := h
  rw [asSigned_of_lt (by omega), hat]
  have htarget : ((array.cut size).atPos pos).target array.pos lfsSeekSet = array.pos := rfl
  have hseek := lfsFileSeek_seeks hsetting hchanged window array.pos lfsSeekSet
    (htarget ▸ Int.natCast_nonneg _) (by rw [htarget]; omega)
  apply hseek.bind
  intro n lfs' h
  obtain ⟨hn, file'', own'', hdone⟩ := h
  rw [htarget, Int.toNat_natCast] at hn
  rw [hn] at hdone
  exact Completes.pure ⟨file'', own'', hdone⟩

end Littlefs
