import Littlefs.Seeking

/-!
# Writes anywhere in an open file

A write first leaves the state of reading, goes to the end when the file is open for
appending, and fills the gap behind the end with zeros.
-/

namespace Littlefs

open Program SkipLists

variable {base lfs lfs' : Lfs} {key : ℕ} {file : Handle} {data bytes : Bytes}
  {committed others start old own : List Block} {blocks : ℕ → Block} {array : ByteFile}

/-! ## The end of a file -/

theorem FileMode.size_le (hmode : FileMode lfs committed others file data own) :
    file.ctz.size ≤ data.length := by
  rw [hmode.length_eq, Handle.length]
  split
  · exact le_max_right _ _
  · exact le_refl _

theorem OpenFile.fitting (hopen : OpenFile base key committed others start array file own lfs)
    (hpos : array.pos ≤ array.data.length) (hroom : array.pos + bytes.length ≤ base.fileMax)
    (happend : file.flags.append = true → array.pos = array.data.length) :
    Fitting base array file bytes where
  pos_le := hpos
  room := hroom
  appending happending := by
    rw [happend happending]
    exact hopen.represents.mode.size_le

/-- The array, lengthened with zeros up to `pos`. -/
def ByteFile.fill (array : ByteFile) (pos : ℕ) : ByteFile :=
  { array with data := array.data.takeD pos 0, pos := pos }

theorem ByteFile.fill_put (hend : array.pos = array.data.length) (pos : ℕ) :
    (array.put [0]).fill pos = array.fill pos := by
  have hdata : (spliced array.data array.pos [0]).takeD pos 0 = array.data.takeD pos 0 := by
    apply bytes_ext
    · rw [List.takeD_length, List.takeD_length]
    · intro i hi
      rw [List.takeD_length] at hi
      rw [getD_takeD_of_lt hi, getD_takeD_of_lt hi, getD_spliced]
      split
      · rename_i hinside
        rw [List.length_singleton] at hinside
        rw [List.getD_eq_default _ _ (show array.data.length ≤ i by omega),
          show i - array.pos = 0 by omega]
        rfl
      · rfl
  rw [fill, fill, put, hdata]

theorem ByteFile.fill_self (hend : array.pos = array.data.length) :
    array.fill array.pos = array := by
  have hdata : array.data.takeD array.pos 0 = array.data := by
    rw [hend]
    apply bytes_ext (List.takeD_length _ _ _)
    intro i hi
    rw [List.takeD_length] at hi
    exact getD_takeD_of_lt hi
  rw [fill, hdata]

/-- The loop fills the gap. -/
theorem fillGap_fills (hsetting : Setting base key committed others start) {pos : ℕ}
    (hmax : pos ≤ base.fileMax) (fuel : ℕ)
    (hopen : OpenFile base key committed others start array file own lfs)
    (hend : array.pos = array.data.length) (hle : array.pos ≤ pos)
    (hunread : file.flags.reading = false) (hfuel : pos - array.pos < fuel) :
    Completes base (fillGap key pos fuel) (fun _ lfs' => ∃ file' own',
      OpenFile base key committed others start (array.fill pos) file' own' lfs' ∧
        file'.flags.reading = false) lfs := by
  induction fuel generalizing array file own lfs with
  | zero => exact absurd hfuel (Nat.not_lt_zero _)
  | succ fuel ih =>
      have hat := hopen.represents.pos_eq
      rw [fillGap]
      apply hopen.serving.handle hsetting.present
      apply Completes.ite
      · intro hlt
        have hroom : array.pos + [0].length ≤ base.fileMax := by
          rw [List.length_singleton]
          omega
        apply (lfsFileFlushedwrite_puts hsetting hopen
          (hopen.fitting hend.le hroom fun _ => hend) hunread).bind
        intro _ lfs' h
        obtain ⟨file', own', hput, hunread'⟩ := h
        have hpos : (array.put [0]).pos = array.pos + 1 := rfl
        have hlength : (array.put [0]).data.length = array.pos + 1 := by
          change (spliced array.data array.pos [0]).length = _
          rw [length_spliced, List.length_singleton]
          omega
        have hnext := ih hput (hpos.trans hlength.symm) (by omega) hunread' (by omega)
        rw [ByteFile.fill_put hend] at hnext
        exact hnext
      · intro hge
        have hpos : pos = array.pos := by omega
        rw [hpos, ByteFile.fill_self hend]
        exact Completes.pure ⟨file, own, hopen, hunread⟩

/-! ## A write -/

/-- A write ends the state of reading. -/
def leaveReading (key : ℕ) : FsM Unit := do
  let file ← getHandle key
  if file.flags.reading then
    lfsFileFlush key

/-- A write to a file that is open for appending goes to the end. -/
def goToEnd (key : ℕ) : FsM Unit := do
  let file ← getHandle key
  if file.flags.append ∧ file.pos < file.ctz.size then
    modifyHandle key fun file => { file with pos := file.ctz.size }

/-- The part of a write behind the check of the limit. -/
def finishWrite (key : ℕ) (file : Handle) (data : Bytes) : FsM Unit := do
  if ¬file.flags.writing ∧ file.ctz.size < file.pos then
    modifyHandle key fun file => { file with pos := file.ctz.size }
    fillGap key file.pos (file.pos - file.ctz.size + 1)
  lfsFileFlushedwrite key data
  modifyHandle key fun file => { file with flags := { file.flags with erred := false } }

theorem lfsFileWrite_parts (key : ℕ) (data : Bytes) : lfsFileWrite key data = (do
    leaveReading key
    goToEnd key
    let lfs ← get
    let file ← getHandle key
    if lfs.fileMax < (file.pos + data.length) % 2 ^ 32 then
      failWith .fileTooBig
    finishWrite key file data) := by
  simp only [lfsFileWrite, leaveReading, goToEnd, finishWrite, bind_assoc, ite_bind, pure_bind]

/-- The data of a file that is open for appending end at its position while it is written. -/
theorem OpenFile.writePos_eq
    (hopen : OpenFile base key committed others start array file own lfs) :
    array.writePos =
      if file.flags.append ∧ file.pos < file.ctz.size then file.ctz.size else file.pos := by
  have hlength := hopen.represents.mode.length_eq
  have hat := hopen.represents.pos_eq
  have happend := hopen.represents.append_eq
  rw [Handle.length] at hlength
  rw [ByteFile.writePos, ← happend]
  by_cases happending : file.flags.append = true
  · have hbehind := hopen.represents.appending happending
    simp only [happending, if_true, true_and]
    split at hlength
    · rename_i hwriting
      have hle := hbehind hwriting
      rw [if_neg (by omega)]
      omega
    · split <;> omega
  · rw [if_neg happending, if_neg fun h => happending h.1, hat]

theorem leaveReading_leaves (hsetting : Setting base key committed others start)
    (hopen : OpenFile base key committed others start array file own lfs) :
    Completes base (leaveReading key) (fun _ lfs' => ∃ file' own',
      OpenFile base key committed others start array file' own' lfs' ∧
        file'.flags.reading = false) lfs := by
  apply hopen.serving.handle hsetting.present
  apply Completes.ite
  · intro _
    apply (lfsFileFlush_settles hsetting hopen).imp
    intro _ lfs' h
    obtain ⟨file', own', hsettled, hunread, -⟩ := h
    exact ⟨file', own', hsettled, hunread⟩
  · exact fun hunread => Completes.pure ⟨file, own, hopen, Bool.eq_false_iff.mpr hunread⟩

/-- A write begins where the array says. -/
theorem goToEnd_goes (hsetting : Setting base key committed others start)
    (hopen : OpenFile base key committed others start array file own lfs)
    (hunread : file.flags.reading = false) :
    Completes base (goToEnd key) (fun _ lfs' => ∃ file',
      OpenFile base key committed others start (array.atPos array.writePos) file' own lfs' ∧
        file'.flags.reading = false) lfs := by
  have hlimits := hopen.limits hsetting.limits
  have hstart := hopen.writePos_eq
  apply hopen.serving.handle hsetting.present
  apply Completes.ite
  · intro hbehind
    have hidle : file.flags.writing = false := by
      rw [Bool.eq_false_iff]
      intro hwriting
      have hle := hopen.represents.appending hbehind.1 hwriting
      omega
    have hsize := hopen.represents.mode.size_le
    have hlength := hopen.represents.length_le
    have hmoved := hopen.modify hlimits.block_ge
      (fun file => { file with pos := file.ctz.size }) rfl
      (hopen.represents.moveTo hlimits hidle (hsize.trans hlength)
        fun hreading => absurd (hunread.symm.trans hreading) Bool.false_ne_true)
      (List.Subset.refl own)
    rw [hstart, if_pos hbehind]
    exact ⟨_, hmoved, hunread⟩
  · intro hstay
    have harray : array.atPos array.writePos = array := by
      rw [hstart, if_neg hstay, hopen.represents.pos_eq]
      rfl
    rw [harray]
    exact Completes.pure ⟨file, hopen, hunread⟩

theorem FileMode.erred (hmode : FileMode lfs committed others file data own) :
    FileMode lfs committed others { file with flags := { file.flags with erred := false } } data
      own := by
  cases hmode with
  | inline hfile => exact .inline { hfile with }
  | listed hfile => exact .listed { hfile with reads := { hfile.reads with } }
  | writing hfile =>
      have hholds : WritingFile lfs committed others
          { file with flags := { file.flags with erred := false } } data _ _ file.pos :=
        { hfile with }
      exact .writing hholds

/-- Bytes up to the end of the file, and the mark of a failed write goes. -/
theorem putAndClear (hsetting : Setting base key committed others start)
    (hopen : OpenFile base key committed others start array file own lfs)
    (hfitting : Fitting base array file bytes) (hunread : file.flags.reading = false) :
    Completes base (do
      lfsFileFlushedwrite key bytes
      modifyHandle key fun file => { file with flags := { file.flags with erred := false } })
      (fun _ lfs' => ∃ file' own',
        OpenFile base key committed others start (array.put bytes) file' own' lfs') lfs := by
  apply (lfsFileFlushedwrite_puts hsetting hopen hfitting hunread).bind
  intro _ lfs' h
  obtain ⟨file', own', hput, -⟩ := h
  have hcleared := hput.modify (hput.limits hsetting.limits).block_ge
    (fun file => { file with flags := { file.flags with erred := false } }) rfl
    { hput.represents with mode := hput.represents.mode.erred } (List.Subset.refl own')
  exact ⟨_, own', hcleared⟩

/-- Zeros in the gap make no difference to what is put in behind them. -/
theorem ByteFile.put_fill (hgap : array.data.length ≤ array.pos) (pos : ℕ) :
    ((array.atPos pos).fill array.pos).put bytes = array.put bytes := by
  have hdata : spliced (array.data.takeD array.pos 0) array.pos bytes =
      spliced array.data array.pos bytes := by
    have hhead : (array.data.takeD array.pos 0).length = array.pos := List.takeD_length _ _ _
    apply bytes_ext
    · rw [length_spliced, length_spliced]
      omega
    · intro i _
      rw [getD_spliced, getD_spliced]
      split
      · rfl
      · by_cases hbefore : i < array.pos
        · exact getD_takeD_of_lt hbefore
        · rw [List.getD_eq_default _ _ (by omega), List.getD_eq_default _ _ (by omega)]
  change { array with
    data := spliced (array.data.takeD array.pos 0) array.pos bytes
    pos := array.pos + bytes.length : ByteFile } = _
  rw [hdata]
  rfl

/-- Bytes that the limit allows are written, behind zeros where there is a gap. -/
theorem finishWrite_finishes (hsetting : Setting base key committed others start)
    (hopen : OpenFile base key committed others start array file own lfs)
    (hunread : file.flags.reading = false) (hroom : array.pos + bytes.length ≤ base.fileMax)
    (happend : file.flags.append = true → array.data.length ≤ array.pos) :
    Completes base (finishWrite key file bytes) (fun _ lfs' => ∃ file' own',
      OpenFile base key committed others start (array.put bytes) file' own' lfs') lfs := by
  have hlimits := hopen.limits hsetting.limits
  have hat := hopen.represents.pos_eq
  have hlength := hopen.represents.mode.length_eq
  apply Completes.ite
  · intro hgap
    obtain ⟨hwriting, hlt⟩ := hgap
    have hidle := Bool.eq_false_iff.mpr hwriting
    rw [Handle.length_settled hidle] at hlength
    have hsize := hopen.represents.length_le
    have hmoved := hopen.modify hlimits.block_ge (fun file => { file with pos := file.ctz.size })
      rfl (hopen.represents.moveTo hlimits hidle (hlength.ge.trans hsize)
        fun hreading => absurd (hunread.symm.trans hreading) Bool.false_ne_true)
      (List.Subset.refl own)
    apply Serving.modify_bind
    have hfills := fillGap_fills hsetting (show file.pos ≤ base.fileMax by omega)
      (file.pos - file.ctz.size + 1) hmoved hlength.symm hlt.le hunread (Nat.lt_succ_self _)
    rw [hat] at hfills ⊢
    apply hfills.bind
    intro _ lfs' h
    obtain ⟨file', own', hfilled, hunread'⟩ := h
    have hend : ((array.atPos file.ctz.size).fill array.pos).data.length = array.pos :=
      List.takeD_length _ _ _
    have hput := putAndClear hsetting hfilled (hfilled.fitting hend.ge hroom fun _ => hend.symm)
      hunread'
    rw [ByteFile.put_fill (by omega)] at hput
    exact hput
  · intro hstay
    have hle : array.pos ≤ array.data.length := by
      rw [hlength, Handle.length]
      split
      · rw [hat]
        exact le_max_left _ _
      · rename_i hidle
        have hnot := not_and.mp hstay hidle
        omega
    exact putAndClear hsetting hopen
      (hopen.fitting hle hroom fun happending => le_antisymm hle (happend happending)) hunread

/-- The file stands where its write is to begin. -/
theorem starts_write (hsetting : Setting base key committed others start)
    (hopen : OpenFile base key committed others start array file own lfs) {α : Type}
    {next : FsM α} {post : α → Lfs → Prop} {fail : Fault → Lfs → Prop}
    (hfail : ∀ failure lfs', Defeated base failure → fail failure lfs')
    (hnext : ∀ file' own' lfs', file'.flags.reading = false →
      OpenFile base key committed others start (array.atPos array.writePos) file' own' lfs' →
        Outcome next post fail lfs') :
    Outcome (do
      leaveReading key
      goToEnd key
      next) post fail lfs := by
  apply outcome_bind.mpr
  apply Outcome.imp (leaveReading_leaves hsetting hopen) _ hfail
  intro _ middle h
  obtain ⟨file', own', hleft, hunread⟩ := h
  apply outcome_bind.mpr
  apply Outcome.imp (goToEnd_goes hsetting hleft hunread) _ hfail
  intro _ lfs' h
  obtain ⟨file'', hmoved, hunread'⟩ := h
  exact hnext file'' own' lfs' hunread' hmoved

/-- `lfs_file_write_` puts the bytes where the array says. -/
theorem lfsFileWrite_writes (hsetting : Setting base key committed others start)
    (hopen : OpenFile base key committed others start array file own lfs)
    (hroom : array.writePos + bytes.length ≤ base.fileMax) :
    Completes base (lfsFileWrite key bytes) (fun _ lfs' => ∃ file' own',
      OpenFile base key committed others start ((array.atPos array.writePos).put bytes) file' own'
        lfs') lfs := by
  obtain ⟨hmax, -, -⟩ := hopen.words hsetting
  rw [hopen.serving.fileMax] at hmax
  rw [lfsFileWrite_parts]
  apply starts_write hsetting hopen fun _ _ h => h
  intro file' own' lfs' hunread hmoved
  have hat : file'.pos = array.writePos := hmoved.represents.pos_eq
  apply Completes.get_bind
  apply hmoved.serving.handle hsetting.present
  rw [hmoved.serving.fileMax, hat, Nat.mod_eq_of_lt (by omega), if_neg (by omega)]
  apply finishWrite_finishes hsetting hmoved hunread hroom
  intro happend
  have happending : array.append = true := hmoved.represents.append_eq.symm.trans happend
  change array.data.length ≤ array.writePos
  rw [ByteFile.writePos, if_pos happending]
  exact le_max_right _ _

/-- A write behind the limit is refused where it would begin. -/
theorem lfsFileWrite_refuses (hsetting : Setting base key committed others start)
    (hopen : OpenFile base key committed others start array file own lfs)
    (hbytes : bytes.length < 2 ^ 31) (hroom : base.fileMax < array.writePos + bytes.length) :
    Outcome (lfsFileWrite key bytes) (fun _ _ => False)
      (fun failure lfs' => Defeated base failure ∨
        failure = .error .fileTooBig ∧ ∃ file' own',
          OpenFile base key committed others start (array.atPos array.writePos) file' own'
            lfs') lfs := by
  rw [lfsFileWrite_parts]
  apply starts_write hsetting hopen fun _ _ h => Or.inl h
  intro file' own' lfs' _ hmoved
  have hat : file'.pos = array.writePos := hmoved.represents.pos_eq
  obtain ⟨-, hpos, -⟩ := hmoved.words hsetting
  change array.writePos < 2 ^ 31 at hpos
  rw [outcome_bind, outcome_get]
  apply hmoved.serving.outcome_handle hsetting.present
  rw [hmoved.serving.fileMax, hat, Nat.mod_eq_of_lt (by omega), if_pos hroom]
  exact Or.inr ⟨rfl, file', own', hmoved⟩

end Littlefs
