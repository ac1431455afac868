import Littlefs.ReadingFiles

/-!
# Lists that are being written

A write first makes a place for its next byte, in the last block or in a fresh one behind
it, and then programs as much as that block takes.  The list is well formed all the while:
the pointers of the last block come before its data, and no other block is written.
-/

namespace Littlefs

open Program SkipLists

variable {lfs lfs' : Lfs} {committed others old used : List Block} {file : Handle} {data : Bytes}
  {blocks : ℕ → Block} {nblock : Block} {off stop : ℕ}

/-! ## Last blocks -/

section

variable {blockSize pos k : ℕ}

theorem lastIndex_succ : lastIndex blockSize (pos + 1) = (lfsCtzIndex blockSize pos).1 := by
  rw [lastIndex, Nat.add_sub_cancel]

/-- Bytes that fit the block are all in it. -/
theorem lastIndex_add (hblock : 128 ≤ blockSize) (hpos : 0 < k) (hword : pos + k < 2 ^ 32)
    (hroom : (lfsCtzIndex blockSize pos).2 + k ≤ blockSize) :
    lastIndex blockSize (pos + k) = (lfsCtzIndex blockSize pos).1 := by
  have hadd := lfsCtzIndex_add pos (k - 1) hblock (by omega) (by omega)
  rw [lastIndex, show pos + k - 1 = pos + (k - 1) by omega, hadd]

/-- The block behind the last one is the next one. -/
theorem lfsCtzIndex_le_succ (hblock : 128 ≤ blockSize) (hpos : 0 < pos) (hword : pos < 2 ^ 32) :
    (lfsCtzIndex blockSize pos).1 ≤ lastIndex blockSize pos + 1 := by
  rw [lastIndex, lfsCtzIndex_next hblock hpos hword, ctzNext]
  split
  · exact Nat.le_succ _
  · exact le_refl _

/-- Behind a block that is not full the next byte is in the same block. -/
theorem lfsCtzIndex_unfilled (hblock : 128 ≤ blockSize) (hpos : 0 < pos) (hword : pos < 2 ^ 32)
    (hroom : (lfsCtzIndex blockSize (pos - 1)).2 + 1 < blockSize) :
    lfsCtzIndex blockSize pos =
      (lastIndex blockSize pos, (lfsCtzIndex blockSize (pos - 1)).2 + 1) := by
  have hadd := lfsCtzIndex_add (pos - 1) 1 hblock (by omega) hroom
  rw [Nat.sub_add_cancel hpos] at hadd
  exact hadd

end

/-! ## A place in a fresh block -/

/-- The file with the block that its next byte goes to. -/
def Handle.growAt (file : Handle) (block : Block) (off : ℕ) : Handle :=
  { file with block := block, off := off, flags := { file.flags with writing := true } }

/-- The list goes on in the block that was granted. -/
theorem readyFile_of_goesOn (hblock : 128 ≤ lfs.cfg.blockSize)
    (hgranted : Granted used lfs nblock lfs') (hgood : 0 < file.pos → lfs.progBad nblock = false)
    (hgoes : GoesOn lfs.cfg.blockSize used (diskBytes lfs.disk) blocks file.pos nblock off
      (diskBytes lfs'.disk nblock))
    (hinline : file.flags.inline = false) (hunread : file.flags.reading = false)
    (hlength : data.length = max stop file.ctz.size)
    (hbacking : Backing lfs committed file.flags.dirty file.ctz stop data old)
    (hlist : 0 < file.pos → ∃ head, FileList lfs head file.pos blocks ∧
      listedBlocks lfs.cfg.blockSize file.pos blocks ⊆ used)
    (hbyte : ∀ p < file.pos, lfs.byteAt blocks p = data.getD p 0)
    (hword : file.pos + 1 < 2 ^ 32) (hcommitted : committed ⊆ others)
    (hused : others ++ old ⊆ used) :
    ReadyFile lfs' committed others (file.growAt nblock off) data old
      (Function.update blocks (lfsCtzIndex lfs.cfg.blockSize file.pos).1 nblock) stop := by
  have hsame : SameFs lfs lfs' := ⟨by
    have heq := hgranted.eq
    rw [heq]⟩
  have hcfg := hsame.cfg
  have hagree : AgreeOn used lfs.disk lfs'.disk := hgranted.agree
  obtain ⟨hpointers, hbytes⟩ := hgoes.list (diskBytes lfs'.disk)
    (fun block hmem => congrArg BlockImage.data (hagree block hmem)) fun _ _ => rfl
  -- the blocks before the new one are those of the list so far
  have hearlier : ∀ i < (lfsCtzIndex lfs.cfg.blockSize file.pos).1,
      blocks i ∈ used ∧ OnDevice lfs (blocks i) := by
    intro i hi
    have hpos : 0 < file.pos := by
      by_contra hzero
      rw [show file.pos = 0 by omega, lfsCtzIndex_zero hblock] at hi
      exact absurd hi (Nat.not_lt_zero _)
    obtain ⟨head, hfile, hsub⟩ := hlist hpos
    have hle := lfsCtzIndex_le_succ hblock hpos (by omega)
    exact ⟨hsub (mem_listedBlocks.mpr ⟨i, by omega, rfl⟩), hfile.device i (by omega)⟩
  have hlast : lastIndex lfs'.cfg.blockSize (file.pos + 1) =
      (lfsCtzIndex lfs.cfg.blockSize file.pos).1 := by rw [hcfg, lastIndex_succ]
  constructor
  · constructor
    · exact hinline
    · rfl
    · exact hunread
    · exact hlength
    · apply hbacking.frame hblock hsame
      apply hagree.mono
      exact List.Subset.trans (List.append_subset.mpr ⟨List.Subset.trans hcommitted
        (List.subset_append_left _ _), List.subset_append_right _ _⟩) hused
    · constructor
      · exact Nat.succ_pos _
      · exact hword
      · change Function.update blocks (lfsCtzIndex lfs.cfg.blockSize file.pos).1 nblock
          (lastIndex lfs'.cfg.blockSize (file.pos + 1)) = nblock
        rw [hlast, Function.update_self]
      · change CtzList _ _ (lastIndex lfs'.cfg.blockSize (file.pos + 1))
        rw [hlast]
        exact hpointers
      · change ∀ i ≤ lastIndex lfs'.cfg.blockSize (file.pos + 1), _
        rw [hlast]
        intro i hi
        apply hsame.onDevice
        obtain hlt | heq := lt_or_eq_of_le hi
        · rw [Function.update_of_ne hlt.ne]
          exact (hearlier i hlt).2
        · rw [heq, Function.update_self]
          exact fun h => absurd hgranted.lt (not_lt.mpr h.2)
    · intro p hp
      rw [← hbyte p hp, Lfs.byteAt, hcfg]
      exact hbytes p hp
    · exact fun hmem => hgranted.free (hused hmem)
    · change ∀ i < lastIndex lfs'.cfg.blockSize (file.pos + 1), _ ≠ nblock
      rw [hlast]
      intro i hi
      rw [Function.update_of_ne hi.ne]
      exact fun heq => hgranted.free (heq ▸ (hearlier i hi).1)
  · change off = (lfsCtzIndex lfs'.cfg.blockSize file.pos).2
    rw [hcfg]
    exact hgoes.off_eq
  · intro hpos
    rw [hsame.progBad]
    exact hgood hpos

/-- Where a block is not full, its next byte goes there. -/
theorem WritingFile.ready (hblock : 128 ≤ lfs.cfg.blockSize)
    (hfile : WritingFile lfs committed others file data old blocks stop)
    (hroom : file.off < lfs.cfg.blockSize) (hword : file.pos + 1 < 2 ^ 32) :
    ReadyFile lfs committed others file data old blocks stop := by
  have hindex := lfsCtzIndex_unfilled hblock hfile.list.pos hfile.list.lt (by
    rw [← hfile.off_eq]
    exact hroom)
  have hlast : lastIndex lfs.cfg.blockSize (file.pos + 1) =
      lastIndex lfs.cfg.blockSize file.pos := by rw [lastIndex_succ, hindex]
  have hgrowing := hfile.toGrowing
  refine { hgrowing with list := ?_, distinct := ?_, off_eq := ?_, good := fun _ => hfile.good }
  · have hlist := hfile.list
    refine ⟨Nat.succ_pos _, hword, ?_, ?_, ?_⟩
    · rw [hlast]
      exact hlist.head_eq
    · rw [hlast]
      exact hlist.list
    · rw [hlast]
      exact hlist.device
  · rw [hlast]
    exact hfile.distinct
  · rw [hindex]
    exact hfile.off_eq

/-! ## Bytes in the last block -/

theorem ReadyFile.block_eq (hfile : ReadyFile lfs committed others file data old blocks stop) :
    blocks (lfsCtzIndex lfs.cfg.blockSize file.pos).1 = file.block := by
  rw [← lastIndex_succ]
  exact hfile.list.head_eq

/-- Bytes behind those that the block holds. -/
theorem ReadyFile.program (hblock : 128 ≤ lfs.cfg.blockSize)
    (hfile : ReadyFile lfs committed others file data old blocks stop) {bytes : Bytes}
    {image : BlockImage} (hwrote : Wrote file.block image lfs lfs')
    (hdata : image.data = overwrite (lfs.disk file.block).data file.off bytes)
    (hgood : lfs.progBad file.block = false) (hpos : 0 < bytes.length)
    (hroom : file.off + bytes.length ≤ lfs.cfg.blockSize)
    (hword : file.pos + bytes.length < 2 ^ 32) (hcommitted : committed ⊆ others)
    (hbytes : ∀ k < bytes.length, data.getD (file.pos + k) 0 = bytes.getD k 0) :
    WritingFile lfs' committed others (file.advance bytes.length) data old blocks stop := by
  have hsame : SameFs lfs lfs' := ⟨by rw [hwrote.eq]⟩
  have hcfg := hsame.cfg
  have hdisk : lfs'.disk = Function.update lfs.disk file.block image := by rw [hwrote.eq]
  have hother : ∀ block, block ≠ file.block → lfs'.disk block = lfs.disk block := by
    intro block hne
    rw [hdisk, Function.update_of_ne hne]
  have hheld : diskBytes lfs'.disk file.block =
      overwrite (lfs.disk file.block).data file.off bytes := by
    rw [diskBytes, hdisk, Function.update_self, hdata]
  have hoff := hfile.off_eq
  have hlast : lastIndex lfs'.cfg.blockSize (file.pos + bytes.length) =
      (lfsCtzIndex lfs.cfg.blockSize file.pos).1 := by
    rw [hcfg]
    exact lastIndex_add hblock hpos hword (by omega)
  have hlist := hfile.list
  have hdistinct := hfile.distinct
  have hpointers := hlist.list.pointer
  have hdevice := hlist.device
  rw [lastIndex_succ] at hdistinct hpointers hdevice
  have hwords := pointers_le_lfsCtzIndex file.pos hblock (by omega)
  have hindex_lt : (lfsCtzIndex lfs.cfg.blockSize file.pos).1 < 2 ^ 32 := by
    obtain ⟨index, place, hat⟩ := exists_ctzAt hblock (show file.pos < 2 ^ 32 by omega)
    rw [lfsCtzIndex_eq hat (by omega)]
    exact lt_trans hat.index_lt (by norm_num [ctzLayout, ctzCount])
  have hgrowing : Growing lfs' committed others (file.advance bytes.length) data old blocks stop
      (file.pos + bytes.length) := by
    constructor
    · exact hfile.inline
    · exact hfile.writing
    · exact hfile.unread
    · exact hfile.length_eq
    · apply hfile.backing.frame hblock hsame
      intro block hmem
      apply hother
      rintro rfl
      apply hfile.free
      apply (List.mem_append.mp hmem).elim
      · exact fun h => List.mem_append_left _ (hcommitted h)
      · exact fun h => List.mem_append_right _ h
    · constructor
      · omega
      · exact hword
      · rw [hlast]
        exact hfile.block_eq
      · rw [hlast]
        constructor
        intro i hi hipos k hk
        obtain hlt | heq := lt_or_eq_of_le hi
        · rw [diskBytes, hother _ (hdistinct i hlt)]
          exact hpointers i hi hipos k hk
        · have hblock_eq : blocks i = file.block := by rw [heq, hfile.block_eq]
          have hstored := hpointers i hi hipos k hk
          rw [hblock_eq] at hstored ⊢
          rw [hheld, ← hstored]
          apply readWord_congr
          intro j hj
          rw [← heq, pointers_of_pos hipos, ← lfsCtz_eq hipos (heq ▸ hindex_lt)] at hwords
          rw [getD_overwrite, if_neg (by omega)]
          rfl
      · rw [hlast]
        exact fun i hi => hsame.onDevice (hdevice i hi)
    · intro p hp
      change p < file.pos + bytes.length at hp
      rw [Lfs.byteAt, hcfg, ctzByte]
      by_cases hbefore : p < file.pos
      · have hle := lfsCtzIndex_mono hblock hbefore.le (show file.pos < 2 ^ 32 by omega)
        rw [← hfile.byte p hbefore, Lfs.byteAt, ctzByte]
        obtain hlt | heq := lt_or_eq_of_le hle
        · rw [diskBytes, hother _ (hdistinct _ hlt)]
          rfl
        · have hplace := lfsCtzIndex_off hblock hbefore.le (show file.pos < 2 ^ 32 by omega) heq
          rw [heq, hfile.block_eq, hheld, getD_overwrite, if_neg (by omega)]
          rfl
      · have hadd := lfsCtzIndex_add file.pos (p - file.pos) hblock (by omega)
          (by omega)
        rw [Nat.add_sub_cancel' (not_lt.mp hbefore)] at hadd
        have hbyte := hbytes (p - file.pos) (by omega)
        rw [Nat.add_sub_cancel' (not_lt.mp hbefore)] at hbyte
        rw [hadd, hfile.block_eq, hheld, getD_overwrite, if_pos ⟨by omega, by omega⟩, hbyte]
        congr 1
        omega
    · exact hfile.free
    · rw [hlast]
      exact hdistinct
  refine { hgrowing with off_eq := ?_, good := ?_ }
  · have hadd := lfsCtzIndex_add file.pos (bytes.length - 1) hblock (by omega)
      (by omega)
    change file.off + bytes.length =
      (lfsCtzIndex lfs'.cfg.blockSize (file.pos + bytes.length - 1)).2 + 1
    rw [hcfg, show file.pos + bytes.length - 1 = file.pos + (bytes.length - 1) by omega, hadd]
    dsimp only
    omega
  · rw [hsame.progBad]
    exact hgood

end Littlefs
