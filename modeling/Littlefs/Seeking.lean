import Littlefs.Flushing

/-!
# Moving in an open file

A seek whose target is in the cached part of the same block moves the offset along; every
other one flushes.  Offsets are signed words and positions unsigned ones, and a target in
front of the file wraps to a word that no file is long enough for.
-/

namespace Littlefs

open Program SkipLists

variable {base lfs lfs' : Lfs} {key npos : ℕ} {file : Handle} {data : Bytes}
  {committed others start old own : List Block} {blocks : ℕ → Block} {array : ByteFile}
  {off whence : ℤ} {window : CacheWindow}

/-! ## Words -/

theorem asWord_of_nonneg {value : ℤ} (hnonneg : 0 ≤ value) (hlt : value < 2 ^ 32) :
    asWord value = value.toNat := by
  rw [asWord]
  omega

theorem asWord_of_neg {value : ℤ} (hneg : value < 0) (hge : -2 ^ 31 ≤ value) :
    2 ^ 31 ≤ asWord value := by
  rw [asWord]
  omega

theorem asSigned_of_lt {word : ℕ} (hlt : word < 2 ^ 31) : asSigned word = word := if_pos hlt

/-- A signed word. -/
def SignedWord (value : ℤ) : Prop := -2 ^ 31 ≤ value ∧ value < 2 ^ 31

/-- The word that a seek goes to. -/
theorem seekWord_eq (hat : file.pos = array.pos) (hlength : file.length = array.data.length)
    (hpos : array.pos < 2 ^ 31) :
    (if whence = lfsSeekSet then asWord off
      else if whence = lfsSeekCur then asWord (file.pos + off)
      else if whence = lfsSeekEnd then asWord (file.length + off)
      else file.pos) = asWord (array.target off whence) := by
  rw [ByteFile.target, hat, hlength]
  split
  · rfl
  · split
    · rfl
    · split
      · rfl
      · rw [asWord_of_nonneg (by omega) (by omega)]
        rfl

/-- A target outside of the file is a word behind its limit. -/
theorem lt_seekWord (hoff : SignedWord off) (hpos : array.pos < 2 ^ 31)
    (hlength : array.data.length < 2 ^ 31) {fileMax : ℕ} (hmax : fileMax < 2 ^ 31) :
    fileMax < asWord (array.target off whence) ↔
      array.target off whence < 0 ∨ (fileMax : ℤ) < array.target off whence := by
  have hrange : -2 ^ 31 ≤ array.target off whence ∧ array.target off whence < 2 ^ 32 := by
    obtain ⟨hge, hlt⟩ := hoff
    rw [ByteFile.target]
    split
    · omega
    · split
      · omega
      · split <;> omega
  by_cases hneg : array.target off whence < 0
  · have hword := asWord_of_neg hneg hrange.1
    exact iff_of_true (by omega) (Or.inl hneg)
  · rw [asWord_of_nonneg (by omega) hrange.2]
    omega

/-! ## The file at another position -/

theorem Handle.length_settled (hidle : file.flags.writing = false) :
    file.length = file.ctz.size := by
  rw [Handle.length, if_neg (by simp [hidle])]

/-- The file at another position, standing at the offset `off`. -/
def Handle.moveTo (file : Handle) (npos off : ℕ) : Handle := { file with pos := npos, off := off }

/-- A file that is not being written may go to any position. -/
theorem FileMode.moveTo (hlimits : BlockLimits lfs)
    (hmode : FileMode lfs committed others file data own) (hidle : file.flags.writing = false)
    {off : ℕ} (hword : npos < 2 ^ 32)
    (hplace : file.flags.reading = true → off = (lfsCtzIndex lfs.cfg.blockSize npos).2 ∧
      (lfsCtzIndex lfs.cfg.blockSize file.pos).1 = (lfsCtzIndex lfs.cfg.blockSize npos).1 ∧
      file.off ≠ lfs.cfg.blockSize) :
    FileMode lfs committed others (file.moveTo npos off) data own := by
  cases hmode with
  | inline hfile =>
      have hle := hfile.length_le
      have hinline := hlimits.inline_block
      apply FileMode.inline
      exact
        { hfile with
          length_eq := by
            rw [hfile.length_eq, Handle.length_settled hidle]
            exact (Handle.length_settled
              (show (file.moveTo npos off).flags.writing = false from hidle)).symm
          reading := by
            intro hreading hlt
            change npos < data.length at hlt
            obtain ⟨hoff, -, -⟩ := hplace hreading
            change off = npos
            rw [hoff, lfsCtzIndex_first hlimits.block_ge (by omega) hword]
          writing := fun hwriting => absurd (hidle.symm.trans hwriting) Bool.false_ne_true
          started := fun hwriting => absurd (hidle.symm.trans hwriting) Bool.false_ne_true }
  | listed hfile =>
      apply FileMode.listed
      exact
        { hfile with
          reads :=
            { block_eq := by
                intro hreading _ p hp hindex
                obtain ⟨-, hsame, hroom⟩ := hplace hreading
                exact hfile.reads.block_eq hreading hroom p hp (hindex.trans hsame.symm)
              off_eq := fun hreading _ _ => (hplace hreading).1 } }
  | writing hfile => exact absurd (hidle.symm.trans hfile.writing) Bool.false_ne_true

/-- A file that is being read is not being written. -/
theorem FileMode.idle_of_reading (hmode : FileMode lfs committed others file data own)
    (hreading : file.flags.reading = true) : file.flags.writing = false := by
  cases hmode with
  | inline hfile => exact hfile.apart hreading
  | listed hfile => exact hfile.idle
  | writing hfile => exact absurd (hfile.unread.symm.trans hreading) Bool.false_ne_true

theorem Represents.moveTo (hlimits : BlockLimits lfs)
    (hfile : Represents lfs committed others file array own)
    (hidle : file.flags.writing = false) {off : ℕ} (hpos : npos ≤ lfs.fileMax)
    (hplace : file.flags.reading = true → off = (lfsCtzIndex lfs.cfg.blockSize npos).2 ∧
      (lfsCtzIndex lfs.cfg.blockSize file.pos).1 = (lfsCtzIndex lfs.cfg.blockSize npos).1 ∧
      file.off ≠ lfs.cfg.blockSize) :
    Represents lfs committed others (file.moveTo npos off) (array.atPos npos) own :=
  have hmax : lfs.fileMax < 2 ^ 32 := by
    have hle := hlimits.file_le
    have hlt : lfsFileMax < 2 ^ 32 := by norm_num [lfsFileMax]
    omega
  { hfile with
    pos_eq := rfl
    pos_le := hpos
    appending := fun _ hwriting => absurd (hidle.symm.trans hwriting) Bool.false_ne_true
    mode := hfile.mode.moveTo hlimits hidle (by omega) hplace }

/-- The bounds of the words that a seek calculates with. -/
theorem OpenFile.words (hsetting : Setting base key committed others start)
    (hopen : OpenFile base key committed others start array file own lfs) :
    lfs.fileMax < 2 ^ 31 ∧ array.pos < 2 ^ 31 ∧ array.data.length < 2 ^ 31 := by
  have hle := (hopen.limits hsetting.limits).file_le
  have hlt : lfsFileMax < 2 ^ 31 := by norm_num [lfsFileMax]
  have hpos := hopen.represents.pos_le
  have hat := hopen.represents.pos_eq
  have hlength := hopen.represents.length_le
  omega

/-! ## Seeking -/

/-- A seek to a position that a file may have. -/
theorem lfsFileSeek_seeks (hsetting : Setting base key committed others start)
    (hopen : OpenFile base key committed others start array file own lfs) (window : CacheWindow)
    (off whence : ℤ) (hge : 0 ≤ array.target off whence)
    (hle : array.target off whence ≤ base.fileMax) :
    Completes base (lfsFileSeek key window off whence) (fun n lfs' =>
      n = (array.target off whence).toNat ∧ ∃ file' own',
        OpenFile base key committed others start (array.atPos n) file' own' lfs') lfs := by
  obtain ⟨hmax, hpos, hlength⟩ := hopen.words hsetting
  have hlimits := hopen.limits hsetting.limits
  have hfileMax := hopen.serving.fileMax
  have hword : _ = asWord (array.target off whence) :=
    seekWord_eq hopen.represents.pos_eq hopen.represents.mode.length_eq.symm hpos
  have hnpos : (array.target off whence).toNat ≤ base.fileMax := by omega
  rw [asWord_of_nonneg hge (by omega)] at hword
  apply Completes.get_bind
  apply hopen.serving.handle hsetting.present
  dsimp only
  rw [hword]
  generalize (array.target off whence).toNat = npos at *
  rw [if_neg (by omega)]
  apply Completes.ite
  · intro hsame
    apply Completes.pure
    refine ⟨rfl, file, own, ?_⟩
    have harray : array.atPos npos = array := by
      rw [← hsame, hopen.represents.pos_eq]
      rfl
    rw [harray]
    exact hopen
  · intro _
    apply Completes.ite
    · intro hshort
      obtain ⟨hreading, hroom, hindex, -⟩ := hshort
      have hidle := hopen.represents.mode.idle_of_reading hreading
      have hmoved := hopen.modify hlimits.block_ge (fun file =>
        { file with pos := npos, off := (lfsCtzIndex lfs.cfg.blockSize npos).2 }) rfl
        (hopen.represents.moveTo hlimits hidle (by omega) fun _ => ⟨rfl, hindex, hroom⟩)
        (List.Subset.refl own)
      exact ⟨rfl, _, own, hmoved⟩
    · intro _
      apply (lfsFileFlush_settles hsetting hopen).bind
      intro _ flushed h
      obtain ⟨file', own', hsettled, hunread, hidle⟩ := h
      have hlimits' := hsettled.limits hsetting.limits
      have hmoved := hsettled.modify hlimits'.block_ge (fun file => { file with pos := npos }) rfl
        (hsettled.represents.moveTo hlimits' hidle (by
          rw [hsettled.serving.fileMax]
          exact hnpos) fun hreading => absurd (hunread.symm.trans hreading) Bool.false_ne_true)
        (List.Subset.refl own')
      exact ⟨rfl, _, own', hmoved⟩

/-- A seek to another position is refused, and nothing changes. -/
theorem lfsFileSeek_refuses (hsetting : Setting base key committed others start)
    (hopen : OpenFile base key committed others start array file own lfs) (window : CacheWindow)
    (off whence : ℤ) (hoff : SignedWord off)
    (houtside : array.target off whence < 0 ∨ (base.fileMax : ℤ) < array.target off whence) :
    Outcome (lfsFileSeek key window off whence) (fun _ _ => False)
      (fun failure lfs' => failure = .error .invalid ∧ lfs' = lfs) lfs := by
  obtain ⟨hmax, hpos, hlength⟩ := hopen.words hsetting
  have hword : _ = asWord (array.target off whence) :=
    seekWord_eq hopen.represents.pos_eq hopen.represents.mode.length_eq.symm hpos
  have hlt := (lt_seekWord hoff hpos hlength hmax).mpr (hopen.serving.fileMax ▸ houtside)
  rw [lfsFileSeek, outcome_bind, outcome_get]
  apply hopen.serving.outcome_handle hsetting.present
  dsimp only
  rw [hword, if_pos hlt]
  exact ⟨rfl, rfl⟩

/-- `lfs_file_rewind_` goes to the beginning. -/
theorem lfsFileSeek_start (hsetting : Setting base key committed others start)
    (hopen : OpenFile base key committed others start array file own lfs) (window : CacheWindow) :
    Completes base (lfsFileSeek key window 0 lfsSeekSet) (fun _ lfs' => ∃ file' own',
      OpenFile base key committed others start (array.atPos 0) file' own' lfs') lfs := by
  have hseek := lfsFileSeek_seeks hsetting hopen window 0 lfsSeekSet (le_refl _)
    (Int.natCast_nonneg _)
  apply hseek.imp
  intro n lfs' h
  obtain ⟨rfl, file', own', hmoved⟩ := h
  exact ⟨file', own', hmoved⟩

end Littlefs
