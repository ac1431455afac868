import Littlefs.FlushedWrites

/-!
# Flushing an open file

A flush copies what the old list still holds behind the position to the new one, and then
the struct names the new list.  The position stays, and so do the bytes.
-/

namespace Littlefs

open Program SkipLists

variable {base lfs lfs' : Lfs} {key pos : ℕ} {file origin orig : Handle} {data : Bytes}
  {committed others start old own : List Block} {blocks : ℕ → Block} {array : ByteFile}

/-! ## Reading the old list -/

/-- A handle of a list that is only read, at a position of it. -/
structure Perusing (lfs : Lfs) (orig : Handle) (data : Bytes) (blocks : ℕ → Block) : Prop where
  inline : orig.flags.inline = false
  list : FileList lfs orig.ctz.head orig.ctz.size blocks
  reads : ReadsAt lfs orig blocks
  byte : ∀ p, orig.pos ≤ p → p < orig.ctz.size → lfs.byteAt blocks p = data.getD p 0

/-- The part of a turn that looks up the block of the position. -/
def standCopy (blockSize : ℕ) (file : Handle) : FsM Handle :=
  if ¬file.flags.reading ∨ file.off = blockSize then do
    let place ← readPlace file
    return file.standAt place.1 place.2
  else return file

theorem ite_bind {α β : Type} {condition : Prop} [Decidable condition] (program other : FsM α)
    (next : α → FsM β) : (if condition then program else other) >>= next =
      if condition then program >>= next else other >>= next := by
  split <;> rfl

theorem lfsFileFlushedreadGo_turn {n : ℕ} (fuel : ℕ) (hne : n ≠ 0) :
    lfsFileFlushedreadGo (fuel + 1) file n = (do
      let lfs ← get
      let file ← standCopy lfs.cfg.blockSize file
      let bytes ← readHere file (min n (lfs.cfg.blockSize - file.off))
      let rest ← lfsFileFlushedreadGo fuel (file.advance (min n (lfs.cfg.blockSize - file.off)))
        (n - min n (lfs.cfg.blockSize - file.off))
      return (rest.1, bytes ++ rest.2)) := by
  rw [lfsFileFlushedreadGo, if_neg hne]
  congr 1
  funext lfs
  simp only [standCopy, readHere, readPlace, ite_bind, bind_assoc, pure_bind]
  rfl

/-- The handle of a list, where the next byte is. -/
def Handle.stood (orig : Handle) (blockSize : ℕ) (blocks : ℕ → Block) : Handle :=
  if ¬orig.flags.reading ∨ orig.off = blockSize then
    orig.standAt (blocks (lfsCtzIndex blockSize orig.pos).1) (lfsCtzIndex blockSize orig.pos).2
  else orig

namespace Perusing

theorem frame (hblock : 128 ≤ lfs.cfg.blockSize) (hperusing : Perusing lfs orig data blocks)
    (hsame : SameFs lfs lfs')
    (hagree : AgreeOn (listedBlocks lfs.cfg.blockSize orig.ctz.size blocks) lfs.disk lfs'.disk) :
    Perusing lfs' orig data blocks where
  inline := hperusing.inline
  list := hperusing.list.frame hsame hagree
  reads := hperusing.reads.frame hsame
  byte p hp hlt := by
    rw [hperusing.list.byteAt_frame hblock hsame hagree hlt]
    exact hperusing.byte p hp hlt

theorem stood_eq (hperusing : Perusing lfs orig data blocks) (hlt : orig.pos < orig.ctz.size) :
    (orig.stood lfs.cfg.blockSize blocks).block =
        blocks (lfsCtzIndex lfs.cfg.blockSize orig.pos).1 ∧
      (orig.stood lfs.cfg.blockSize blocks).off = (lfsCtzIndex lfs.cfg.blockSize orig.pos).2 ∧
      (orig.stood lfs.cfg.blockSize blocks).pos = orig.pos ∧
      (orig.stood lfs.cfg.blockSize blocks).ctz = orig.ctz ∧
      (orig.stood lfs.cfg.blockSize blocks).flags.inline = false := by
  rw [Handle.stood]
  split
  · exact ⟨rfl, rfl, rfl, rfl, hperusing.inline⟩
  · rename_i hstanding
    obtain ⟨hreading, hroom⟩ := not_or.mp hstanding
    exact ⟨hperusing.reads.block_eq (not_not.mp hreading) hroom orig.pos hlt rfl,
      hperusing.reads.off_eq (not_not.mp hreading) hroom hlt, rfl, rfl, hperusing.inline⟩

/-- The next byte of the list. -/
theorem next (hblock : 128 ≤ lfs.cfg.blockSize) (hperusing : Perusing lfs orig data blocks)
    (hlt : orig.pos < orig.ctz.size) : ∃ orig',
    Delivers lfs (lfsFileFlushedread orig 1) (orig', [data.getD orig.pos 0]) ∧
      Perusing lfs orig' data blocks ∧ orig'.pos = orig.pos + 1 ∧ orig'.ctz = orig.ctz := by
  obtain ⟨hplace, hoff, hpos, hctz, hinline⟩ := hperusing.stood_eq hlt
  have hsize := hperusing.list.lt
  have hroom : (lfsCtzIndex lfs.cfg.blockSize orig.pos).2 < lfs.cfg.blockSize :=
    lfsCtzIndex_lt hblock (by omega)
  have hstands : Delivers lfs (standCopy lfs.cfg.blockSize orig)
      (orig.stood lfs.cfg.blockSize blocks) := by
    rw [Handle.stood, standCopy]
    split
    · rw [readPlace, if_neg (by simp [hperusing.inline])]
      exact (hperusing.list.find hblock hlt).bind (Delivers.pure _)
    · exact Delivers.pure _
  generalize orig.stood lfs.cfg.blockSize blocks = stood at *
  have hread : Delivers lfs (readHere stood 1) (slice data stood.pos 1) :=
    delivers_readHere hblock hperusing.list hinline (hpos ▸ hplace) (hpos ▸ hoff) Nat.one_pos
      (by omega) (by omega) (hpos ▸ hperusing.byte)
  have hbyte : slice data stood.pos 1 = [data.getD orig.pos 0] := by
    rw [hpos]
    rfl
  rw [hbyte] at hread
  refine ⟨stood.advance 1, ?_, ?_, congrArg (· + 1) hpos, hctz⟩
  · rw [lfsFileFlushedread, if_neg (not_le.mpr hlt),
      show min 1 (orig.ctz.size - orig.pos) = 1 by omega, lfsFileFlushedreadGo_turn _ one_ne_zero]
    apply Delivers.get_bind
    intro now hreads
    have hcfg : now.cfg = lfs.cfg := by rw [hreads.eq]
    rw [hcfg]
    apply hstands.bind
    rw [show min 1 (lfs.cfg.blockSize - stood.off) = 1 by omega]
    exact hread.bind (Delivers.pure _)
  · exact
      { inline := hinline
        list := hctz ▸ hperusing.list
        reads := ReadsAt.advance hblock (hpos ▸ hplace) (hpos ▸ hoff) (by omega) (by omega)
        byte := by
          intro p hp hlt'
          change stood.pos + 1 ≤ p at hp
          change p < stood.ctz.size at hlt'
          rw [hctz] at hlt'
          exact hperusing.byte p (by omega) hlt' }

end Perusing

/-! ## Copying -/

theorem SameFs.of_both (hleft : SameFs base lfs) (hright : SameFs base lfs') : SameFs lfs lfs' := by
  have heq := hleft.eq
  have heq' := hright.eq
  constructor
  rw [heq', heq]

theorem WrittenFile.reads {stop : ℕ} (hsetting : Setting base key committed others start)
    (hwritten : WrittenFile base key committed others start old origin data stop pos file
      blocks lfs)
    (hreads : Reads lfs lfs') :
    WrittenFile base key committed others start old origin data stop pos file blocks lfs' where
  carrying := hwritten.carrying.reads hreads
  holds := hwritten.holds.frame (hwritten.carrying.limits hsetting).block_ge
    ⟨by rw [hreads.eq]⟩ (fun _ _ => by rw [hreads.eq])
    fun h => hwritten.holds.free (List.mem_append_left _ h)
  pos_eq := hwritten.pos_eq

/-- The byte at the position is to be written as it is. -/
theorem WrittenFile.behind
    (hwritten : WrittenFile base key committed others start old origin data pos pos file blocks lfs)
    (hlt : pos < origin.ctz.size) :
    WrittenFile base key committed others start old origin data (pos + 1) pos file blocks lfs where
  carrying := hwritten.carrying
  holds := by
    have hlength := hwritten.holds.length_eq
    have hctz := hwritten.carrying.struct.ctz_eq
    apply hwritten.holds.restate (Nat.le_succ pos) _ (fun _ _ => rfl) fun _ _ _ => rfl
    rw [hctz] at hlength ⊢
    omega
  pos_eq := hwritten.pos_eq

/-- The copy ends behind the last byte of the old list. -/
theorem copyRest_copies (hsetting : Setting base key committed others start)
    (htype : origin.type = .reg) {sources : ℕ → Block} (fuel : ℕ)
    (hfuel : origin.ctz.size - pos < fuel)
    (hwritten : WrittenFile base key committed others start old origin data pos pos file blocks lfs)
    (hperusing : pos < origin.ctz.size → Perusing lfs orig data sources ∧ orig.pos = pos ∧
      orig.ctz = origin.ctz ∧
      listedBlocks base.cfg.blockSize origin.ctz.size sources ⊆ committed ++ old) :
    Completes base (copyRest key fuel orig) (fun _ lfs' => ∃ file blocks,
      WrittenFile base key committed others start old origin data (max pos origin.ctz.size)
        (max pos origin.ctz.size) file blocks lfs') lfs := by
  induction fuel generalizing pos file blocks lfs orig with
  | zero => exact absurd hfuel (Nat.not_lt_zero _)
  | succ fuel ih =>
      have hcarrying := hwritten.carrying
      have hlimits := hcarrying.limits hsetting
      rw [copyRest]
      apply hcarrying.serving.handle hsetting.present
      rw [hwritten.pos_eq, hcarrying.struct.ctz_eq]
      apply Completes.ite
      · intro hlt
        obtain ⟨hperusing, hat, hctz, hcovered⟩ := hperusing hlt
        have hsize := hperusing.list.lt
        rw [hctz] at hsize
        obtain ⟨orig', hdelivers, hperusing', hat', hctz'⟩ :=
          hperusing.next hlimits.block_ge (by rw [hat, hctz]; exact hlt)
        apply completes_delivers hcarrying.serving.suffix hdelivers
        intro read hreads
        have hbefore := (hwritten.behind hlt).reads hsetting hreads
        have hplace := makePlace_written hbefore hsetting (by omega) htype
        rw [hbefore.carrying.serving.cfg] at hplace
        have hbyte : slice [data.getD orig.pos 0] 0 1 = [data.getD pos 0] := by
          rw [hat]
          rfl
        dsimp only
        rw [hbyte]
        have hfirst : ∀ k < [data.getD pos 0].length,
            data.getD (pos + k) 0 = [data.getD pos 0].getD k 0 := by
          intro k hk
          rw [Nat.lt_one_iff.mp hk]
          rfl
        have hone : 0 < [data.getD pos 0].length := Nat.one_pos
        have hword : pos + [data.getD pos 0].length < 2 ^ 32 := by
          rw [List.length_singleton]
          omega
        have hwrite := lfsFileFlushedwrite_written hsetting htype
          (hbefore.carrying.serving.mono (List.subset_append_left _ _)) hbefore.holds.inline
          hplace hone hword hfirst
        apply hwrite.bind
        intro _ lfs' h
        obtain ⟨file', blocks', hnext⟩ := h
        rw [List.length_singleton] at hnext
        have hmax : max pos origin.ctz.size = max (pos + 1) origin.ctz.size := by omega
        rw [hmax]
        apply ih (by omega) hnext
        intro hlt'
        refine ⟨?_, by omega, hctz'.trans hctz, hcovered⟩
        have hcfg := hcarrying.serving.cfg
        apply hperusing'.frame hlimits.block_ge
          (SameFs.of_both hcarrying.serving.sameFs hnext.carrying.serving.sameFs)
        rw [hctz', hctz, hcfg]
        intro block hmem
        have hframe := hcarrying.frame_sub hsetting (hcovered hmem)
        rw [hnext.carrying.serving.agree block hframe, hcarrying.serving.agree block hframe]
      · intro hle
        rw [max_eq_left (not_lt.mp hle)]
        exact Completes.pure ⟨file, blocks, hwritten⟩

/-! ## The struct of a flushed file -/

/-- The file, no longer being read. -/
def Handle.unread (file : Handle) : Handle :=
  { file with flags := { file.flags with reading := false } }

/-- The file, its struct naming the list that was written. -/
def Handle.flushed (file : Handle) (pos : ℕ) : Handle :=
  { file with
    ctz := { head := file.block, size := file.pos }
    flags := { file.flags with writing := false, dirty := true }
    pos := pos }

theorem FileMode.unread (hmode : FileMode lfs committed others file data own) :
    FileMode lfs committed others file.unread data own := by
  have hnot : ¬file.unread.flags.reading = true := Bool.false_ne_true
  cases hmode with
  | inline hfile =>
      exact .inline { hfile with
        reading := fun hreading => absurd hreading hnot
        apart := fun hreading => absurd hreading hnot }
  | listed hfile =>
      exact .listed { hfile with
        reads := ⟨fun hreading => absurd hreading hnot, fun hreading => absurd hreading hnot⟩ }
  | writing hfile =>
      have hholds : WritingFile lfs committed others file.unread data _ _ file.unread.pos :=
        { hfile with unread := rfl }
      exact .writing hholds

/-- Inline data stay where they are. -/
theorem InlineFile.flushed (hfile : InlineFile lfs file data)
    (hwriting : file.flags.writing = true) (hunread : file.flags.reading = false) :
    InlineFile lfs (({ file with pos := max file.pos file.ctz.size } : Handle).flushed file.pos)
      data where
  inline := hfile.inline
  length_eq := by
    rw [hfile.length_eq, Handle.length, if_pos hwriting]
    rfl
  length_le := hfile.length_le
  byte := hfile.byte
  reading hreading := absurd (hunread.symm.trans hreading) Bool.false_ne_true
  writing hwriting := absurd hwriting Bool.false_ne_true
  started hwriting := absurd hwriting Bool.false_ne_true
  apart _ := rfl
  head_eq := (hfile.writing hwriting).2

/-- The list that was written is the one that the struct names. -/
theorem WritingFile.flushed {stop : ℕ} (hblock : 128 ≤ lfs.cfg.blockSize)
    (hfile : WritingFile lfs committed others file data old blocks stop)
    (hlength : data.length = file.pos) (pos : ℕ) :
    ListedFile lfs committed (file.flushed pos) data
      (listedBlocks lfs.cfg.blockSize file.pos blocks) blocks where
  inline := hfile.inline
  idle := rfl
  length_eq := hlength
  list := hfile.list
  covered := List.subset_append_right _ _
  byte := hfile.byte
  traverses _ := hfile.list.traverses hblock
  clean hclean := absurd hclean.symm Bool.false_ne_true
  reads :=
    { block_eq := fun hreading => absurd (hfile.unread.symm.trans hreading) Bool.false_ne_true
      off_eq := fun hreading => absurd (hfile.unread.symm.trans hreading) Bool.false_ne_true }

theorem Represents.unread (hfile : Represents lfs committed others file array own) :
    Represents lfs committed others file.unread array own :=
  { hfile with mode := hfile.mode.unread }

/-- A file that is neither read nor written. -/
def FlushedFile (file : Handle) : Prop := file.flags.reading = false ∧ file.flags.writing = false

/-- The end of a flush. -/
theorem OpenFile.flushed {file' : Handle} {own' : List Block}
    (hopen : OpenFile base key committed others start array file own lfs)
    (hserving : Serving base key others (file'.flushed file.pos) lfs')
    (hstruct : SameStruct file file') (hunread : file'.flags.reading = false)
    (hmode : FileMode lfs' committed others (file'.flushed file.pos) array.data own')
    (hinv : AllocInv (others ++ own') lfs')
    (hkept : ∀ block ∈ own', block ∈ start ∨ block ∉ others) : ∃ file' own',
      OpenFile base key committed others start array file' own' lfs' ∧ FlushedFile file' := by
  have hsame := SameFs.of_both hopen.serving.sameFs hserving.sameFs
  have hfile := hopen.represents
  refine ⟨file'.flushed file.pos, own', ⟨hserving, ?_, hinv, hkept⟩, hunread, rfl⟩
  exact
    { type_eq := hstruct.type_eq.trans hfile.type_eq
      append_eq := hstruct.append_eq.trans hfile.append_eq
      pos_eq := hfile.pos_eq
      pos_le := hsame.fileMax ▸ hfile.pos_le
      length_le := hsame.fileMax ▸ hfile.length_le
      appending := fun _ hwriting => absurd hwriting Bool.false_ne_true
      mode := hmode }

/-- The flush of a file whose data are in its cache. -/
theorem InlineFile.flush (hopen : OpenFile base key committed others start array file [] lfs)
    (hfile : InlineFile lfs file array.data) (hwriting : file.flags.writing = true)
    (hunread : file.flags.reading = false) :
    Completes base (do
      modifyHandle key fun other => { other with pos := max file.pos other.ctz.size }
      modifyHandle key fun other => other.flushed file.pos) (fun _ lfs' => ∃ file' own',
      OpenFile base key committed others start array file' own' lfs' ∧ FlushedFile file') lfs := by
  have hmoved := hopen.serving.modify
    (fun other => { other with pos := max file.pos other.ctz.size }) hopen.serving.key_eq
  have hdone := hmoved.modify (fun other => other.flushed file.pos) hopen.serving.key_eq
  exact hopen.flushed hdone ⟨rfl, rfl, rfl, rfl⟩ hunread
    (.inline ((hfile.flushed hwriting hunread).frame ⟨rfl⟩)) (hopen.inv.congr rfl rfl rfl)
    hopen.kept

/-- The flush of a file that is being written on blocks. -/
theorem WritingFile.flush (hsetting : Setting base key committed others start)
    (hopen : OpenFile base key committed others start array file
      (old ++ listedBlocks lfs.cfg.blockSize file.pos blocks) lfs)
    (hfile : WritingFile lfs committed others file array.data old blocks file.pos) {orig : Handle}
    (hctz : orig.ctz = file.ctz) (hat : orig.pos = file.pos) (hinline : orig.flags.inline = false)
    (hunread : orig.flags.reading = false) :
    Completes base (do
      copyRest key (file.ctz.size - file.pos + 1) orig
      modifyHandle key fun other => other.flushed file.pos) (fun _ lfs' => ∃ file' own',
      OpenFile base key committed others start array file' own' lfs' ∧ FlushedFile file') lfs := by
  have hsetting' := hsetting.later hopen.serving
  have hwritten : WrittenFile lfs key committed others start old file array.data file.pos file.pos
      file blocks lfs := ⟨hopen.carrying (List.subset_append_left old _), hfile, rfl⟩
  have hnot : ¬orig.flags.reading = true := by simp [hunread]
  obtain ⟨sources, hsources⟩ : ∃ sources, file.pos < file.ctz.size →
      Perusing lfs orig array.data sources ∧ orig.pos = file.pos ∧ orig.ctz = file.ctz ∧
        listedBlocks lfs.cfg.blockSize file.ctz.size sources ⊆ committed ++ old := by
    by_cases hlt : file.pos < file.ctz.size
    · obtain ⟨sources, hlist, hcovered, hbyte⟩ := hfile.backing.list hlt
      refine ⟨sources, fun _ => ⟨⟨hinline, ?_, ?_, ?_⟩, hat, hctz, hcovered⟩⟩
      · rw [hctz]
        exact hlist
      · exact ⟨fun hreading => absurd hreading hnot, fun hreading => absurd hreading hnot⟩
      · rw [hctz, hat]
        exact hbyte
    · exact ⟨blocks, fun h => absurd h hlt⟩
  have hcopies := copyRest_copies hsetting' hopen.represents.type_eq
    (file.ctz.size - file.pos + 1) (Nat.lt_succ_self _) hwritten hsources
  apply (hcopies.widen hopen.serving.suffix).bind
  intro _ copied h
  obtain ⟨file', blocks', hcopied⟩ := h
  have hcarrying := hcopied.carrying
  have hserving := hopen.serving.trans
    (hcarrying.serving.mono (List.subset_append_left others old))
  have hdone := hserving.modify (fun other => other.flushed file.pos) hserving.key_eq
  have hblock := (hcarrying.limits hsetting').block_ge
  have hlength : array.data.length = file'.pos := by
    rw [hfile.length_eq, hcopied.pos_eq]
  have hown : listedBlocks copied.cfg.blockSize file'.pos blocks' ⊆
      grownBlocks lfs old (max file.pos file.ctz.size) blocks' := by
    rw [hcopied.pos_eq, hcarrying.serving.cfg]
    exact List.subset_append_right _ _
  have hlisted := (hcopied.holds.flushed hblock hlength file.pos).frame hblock
    (show SameFs copied { copied with
      mlist := updateHandle copied.mlist key fun other => other.flushed file.pos } from ⟨rfl⟩)
    fun _ _ => rfl
  apply Completes.modify
  exact hopen.flushed hdone hcarrying.struct hcopied.holds.unread (.listed hlisted)
    ((hcarrying.inv.mono (List.append_subset.mpr ⟨List.subset_append_left _ _,
      List.Subset.trans hown (List.subset_append_right _ _)⟩)).congr rfl rfl rfl)
    fun block hmem => hcarrying.kept block (hown hmem)

/-- `lfs_file_flush` leaves the bytes and the position. -/
theorem lfsFileFlush_settles (hsetting : Setting base key committed others start)
    (hopen : OpenFile base key committed others start array file own lfs) :
    Completes base (lfsFileFlush key) (fun _ lfs' => ∃ file' own',
      OpenFile base key committed others start array file' own' lfs' ∧ FlushedFile file') lfs := by
  have hblock := (hopen.limits hsetting.limits).block_ge
  have hunread := hopen.modify hblock
    (fun file => { file with flags := { file.flags with reading := false } }) rfl
    hopen.represents.unread (List.Subset.refl own)
  rw [lfsFileFlush]
  apply Serving.modify_bind
  apply hunread.serving.handle hsetting.present
  apply Completes.ite
  · intro hwriting
    have hmode := hunread.represents.mode
    cases hmode with
    | inline hfile =>
        rw [if_pos (show file.flags.inline = true from hfile.inline)]
        exact hfile.flush hunread hwriting rfl
    | listed hfile => exact absurd (hfile.idle.symm.trans hwriting) Bool.false_ne_true
    | writing hfile =>
        rw [if_neg (show ¬file.flags.inline = true by simpa using hfile.inline)]
        exact hfile.flush hsetting hunread rfl rfl rfl rfl
  · intro hidle
    exact Completes.pure ⟨_, own, hunread, rfl, Bool.eq_false_iff.mpr hidle⟩

end Littlefs
