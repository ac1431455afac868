import Littlefs.Truncating

/-!
# The calls on an open file

Every call on an open file answers what its array of bytes answers, and leaves a file that
stands for the array behind the call.
-/

namespace Littlefs

open Program SkipLists

variable {base lfs lfs' : Lfs} {key : ℕ} {file : Handle} {committed others start own : List Block}
  {array : ByteFile}

/-- The words that a caller can pass. -/
def Request.Sound : Request → Prop
  | .write bytes => bytes.length < 2 ^ 31
  | .seek off _ => SignedWord off
  | _ => True

/-- A call has ended at `array`. -/
def StandsFor (base : Lfs) (key : ℕ) (committed others start : List Block) (array : ByteFile)
    (lfs : Lfs) : Prop :=
  ∃ file own, OpenFile base key committed others start array file own lfs

/-- A call ends with the answer and the array of `served`, be it with a refusal. -/
def Serves (base : Lfs) (key : ℕ) (committed others start : List Block)
    (served : Reply × ByteFile) (program : FsM Reply) (lfs : Lfs) : Prop :=
  Outcome program
    (fun reply lfs' => reply = served.1 ∧ StandsFor base key committed others start served.2 lfs')
    (fun failure lfs' => Defeated base failure ∨ ∃ e, (e = .invalid ∨ e = .fileTooBig) ∧
      failure = .error e ∧ served.1 = .refused e ∧
        StandsFor base key committed others start served.2 lfs') lfs

theorem serves_of_completes {α : Type} {program : FsM α} {answer : α → Reply}
    {post : α → Lfs → Prop} {served : Reply × ByteFile}
    (hprogram : Completes base program post lfs)
    (hpost : ∀ value lfs', post value lfs' →
      answer value = served.1 ∧ StandsFor base key committed others start served.2 lfs') :
    Serves base key committed others start served (do
      let value ← program
      return answer value) lfs := by
  apply outcome_bind.mpr
  apply Outcome.imp hprogram
  · exact fun value lfs' h => hpost value lfs' h
  · exact fun failure lfs' h => Or.inl h

/-- What is refused is answered with its error. -/
theorem Serves.orRefused {served : Reply × ByteFile} {program : FsM Reply}
    (hserves : Serves base key committed others start served program lfs) :
    Completes base (orRefused program) (fun reply lfs' => reply = served.1 ∧
      StandsFor base key committed others start served.2 lfs') lfs := by
  apply outcome_bind.mpr
  apply Outcome.tryError hserves
  · exact fun reply lfs' h => h
  · intro e lfs' h
    apply h.elim
    · intro hdefeated
      apply hdefeated.elim
      · intro hspace
        cases hspace
        exact hdefeated
      · intro hio
        obtain ⟨heq, -⟩ := hio
        cases heq
        exact hdefeated
    · intro hrefused
      obtain ⟨e', hkind, heq, hreply, hstands⟩ := hrefused
      cases heq
      apply hkind.elim
      · intro hinvalid
        subst hinvalid
        exact ⟨hreply.symm, hstands⟩
      · intro hbig
        subst hbig
        exact ⟨hreply.symm, hstands⟩
  · intro fault lfs' hfault h
    apply h.elim
    · exact fun hdefeated => hdefeated
    · intro hrefused
      obtain ⟨e, -, heq, -⟩ := hrefused
      exact absurd heq (hfault e)

/-! ## The calls one by one -/

theorem lfsFileTell_serves (hpresent : ∃ file ∈ base.mlist, file.key = key)
    (hopen : OpenFile base key committed others start array file own lfs) :
    Completes base (lfsFileTell key) (fun n lfs' => n = array.pos ∧
      StandsFor base key committed others start array lfs') lfs := by
  apply hopen.serving.handle hpresent
  exact Completes.pure ⟨hopen.represents.pos_eq, file, own, hopen⟩

theorem lfsFileSize_serves (hpresent : ∃ file ∈ base.mlist, file.key = key)
    (hopen : OpenFile base key committed others start array file own lfs) :
    Completes base (lfsFileSize key) (fun n lfs' => n = array.data.length ∧
      StandsFor base key committed others start array lfs') lfs := by
  apply hopen.serving.handle hpresent
  exact Completes.pure ⟨hopen.represents.mode.length_eq.symm, file, own, hopen⟩

/-- `lfs_file_read_` returns the next bytes. -/
theorem lfsFileRead_serves (hsetting : Setting base key committed others start)
    (hopen : OpenFile base key committed others start array file own lfs) (n : ℕ) :
    Completes base (lfsFileRead key n) (fun bytes lfs' => .bytes bytes = (array.read n).1 ∧
      StandsFor base key committed others start (array.read n).2 lfs') lfs := by
  have hread : ∀ file' own' lfs', file'.flags.writing = false →
      OpenFile base key committed others start array file' own' lfs' →
        Completes base (lfsFileFlushedreadOpen key n) (fun bytes lfs' =>
          .bytes bytes = (array.read n).1 ∧
            StandsFor base key committed others start (array.read n).2 lfs') lfs' := by
    intro file' own' lfs' hidle hopen'
    apply (lfsFileFlushedreadOpen_reads hsetting.toSurroundings hopen' hidle).imp
    intro bytes lfs'' h
    obtain ⟨hbytes, file'', hmoved, -⟩ := h
    rw [hbytes] at hmoved
    exact ⟨congrArg Reply.bytes hbytes, file'', own', hmoved⟩
  apply hopen.serving.handle hsetting.present
  by_cases hwriting : file.flags.writing = true
  · rw [if_pos hwriting]
    apply (lfsFileFlush_settles hsetting hopen).bind
    intro _ lfs' h
    obtain ⟨file', own', hsettled, -, hidle⟩ := h
    exact hread file' own' lfs' hidle hsettled
  · rw [if_neg hwriting]
    exact hread file own lfs (Bool.eq_false_iff.mpr hwriting) hopen

theorem ByteFile.write_fits {fileMax : ℕ} {bytes : Bytes}
    (hroom : array.writePos + bytes.length ≤ fileMax) :
    array.write fileMax bytes =
      (.number bytes.length, (array.atPos array.writePos).put bytes) := by
  rw [ByteFile.write, if_neg (not_lt.mpr hroom)]
  rfl

theorem lfsFileWrite_serves (hsetting : Setting base key committed others start)
    (hopen : OpenFile base key committed others start array file own lfs) {bytes : Bytes}
    (hbytes : bytes.length < 2 ^ 31) :
    Serves base key committed others start (array.write base.fileMax bytes) (do
      lfsFileWrite key bytes
      return .number bytes.length) lfs := by
  by_cases hroom : array.writePos + bytes.length ≤ base.fileMax
  · rw [ByteFile.write_fits hroom]
    apply serves_of_completes (lfsFileWrite_writes hsetting hopen hroom)
    exact fun _ lfs' h => ⟨rfl, h⟩
  · have hbig := not_le.mp hroom
    rw [ByteFile.write, if_pos hbig]
    apply outcome_bind.mpr
    apply Outcome.imp (lfsFileWrite_refuses hsetting hopen hbytes hbig)
    · exact fun _ _ h => h.elim
    · intro failure lfs' h
      apply h.imp id
      intro hrefused
      exact ⟨.fileTooBig, Or.inr rfl, hrefused.1, rfl, hrefused.2⟩

theorem lfsFileSeek_serves (hsetting : Setting base key committed others start)
    (hopen : OpenFile base key committed others start array file own lfs) (window : CacheWindow)
    (off whence : ℤ) (hoff : SignedWord off) :
    Serves base key committed others start (array.seek base.fileMax off whence)
      (.number <$> lfsFileSeek key window off whence) lfs := by
  by_cases houtside : array.target off whence < 0 ∨ (base.fileMax : ℤ) < array.target off whence
  · rw [ByteFile.seek, if_pos houtside]
    apply outcome_bind.mpr
    apply Outcome.imp (lfsFileSeek_refuses hsetting hopen window off whence hoff houtside)
    · exact fun _ _ h => h.elim
    · intro failure lfs' h
      obtain ⟨hfailure, hsame⟩ := h
      exact Or.inr ⟨.invalid, Or.inl rfl, hfailure, rfl, file, own, hsame ▸ hopen⟩
  · obtain ⟨hge, hle⟩ := not_or.mp houtside
    rw [ByteFile.seek, if_neg houtside]
    apply serves_of_completes
      (lfsFileSeek_seeks hsetting hopen window off whence (not_lt.mp hge) (not_lt.mp hle))
    intro n lfs' h
    obtain ⟨hn, file', own', hmoved⟩ := h
    rw [← hn]
    exact ⟨rfl, file', own', hmoved⟩

theorem lfsFileRewind_serves (hsetting : Setting base key committed others start)
    (hopen : OpenFile base key committed others start array file own lfs) (window : CacheWindow) :
    Completes base (lfsFileRewind key window) (fun _ =>
      StandsFor base key committed others start (array.atPos 0)) lfs := by
  apply (lfsFileSeek_start hsetting hopen window).bind
  exact fun _ lfs' h => Completes.pure h

theorem lfsFileTruncate_serves (hsetting : Setting base key committed others start)
    (hopen : OpenFile base key committed others start array file own lfs)
    (first last : CacheWindow) (size : ℕ) :
    Serves base key committed others start (array.truncate base.fileMax size) (do
      lfsFileTruncate key first last size
      return .done) lfs := by
  by_cases hmax : base.fileMax < size
  · rw [ByteFile.truncate, if_pos hmax]
    have hrefused : Outcome (do
        lfsFileTruncate key first last size
        return .done : FsM Reply) (fun _ _ => False)
        (fun failure lfs' => failure = .error .invalid ∧ lfs' = lfs) lfs := by
      rw [lfsFileTruncate_parts, outcome_bind, outcome_bind, outcome_get, hopen.serving.fileMax,
        if_pos hmax]
      exact ⟨rfl, rfl⟩
    apply Outcome.imp hrefused
    · exact fun _ _ h => h.elim
    · intro failure lfs' h
      obtain ⟨hfailure, hsame⟩ := h
      exact Or.inr ⟨.invalid, Or.inl rfl, hfailure, rfl, file, own, hsame ▸ hopen⟩
  · rw [ByteFile.truncate, if_neg hmax]
    apply serves_of_completes
      (lfsFileTruncate_truncates hsetting hopen first last (not_lt.mp hmax))
    exact fun _ lfs' h => ⟨rfl, h⟩

/-- A call answers what the array answers. -/
theorem run_serves (hsetting : Setting base key committed others start)
    (hopen : OpenFile base key committed others start array file own lfs) {call : Call}
    (hkey : call.key = key) (hsound : call.request.Sound) :
    Serves base key committed others start (array.serve base.fileMax call.request) call.run
      lfs := by
  obtain ⟨key', request, first, last⟩ := call
  dsimp only at hkey hsound
  subst hkey
  cases request with
  | read n =>
      apply serves_of_completes (lfsFileRead_serves hsetting hopen n)
      exact fun bytes lfs' h => h
  | write bytes => exact lfsFileWrite_serves hsetting hopen hsound
  | seek off whence => exact lfsFileSeek_serves hsetting hopen first off whence hsound
  | rewind =>
      apply serves_of_completes (lfsFileRewind_serves hsetting hopen first)
      exact fun _ lfs' h => ⟨rfl, h⟩
  | truncate size => exact lfsFileTruncate_serves hsetting hopen first last size
  | tell =>
      apply serves_of_completes (lfsFileTell_serves hsetting.present hopen)
      exact fun n lfs' h => ⟨congrArg Reply.number h.1, h.2⟩
  | size =>
      apply serves_of_completes (lfsFileSize_serves hsetting.present hopen)
      exact fun n lfs' h => ⟨congrArg Reply.number h.1, h.2⟩
  | flush =>
      apply serves_of_completes (lfsFileFlush_settles hsetting hopen)
      intro _ lfs' h
      obtain ⟨file', own', hsettled, -⟩ := h
      exact ⟨rfl, file', own', hsettled⟩

end Littlefs
