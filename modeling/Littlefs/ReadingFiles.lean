import Littlefs.OpenModes

/-!
# Reading an open file

A file that is being read stands in the block of its position.  Each turn of the read loop
takes what that block still holds, and the next one looks up the block behind it.
-/

namespace Littlefs

open Program SkipLists

variable {lfs lfs' : Lfs} {committed others old own : List Block} {file : Handle} {data : Bytes}
  {blocks : ℕ → Block} {head : Block} {size n : ℕ}

/-! ## Bytes -/

theorem slice_eq_slice {other : Bytes} {off off' : ℕ}
    (hsame : ∀ k < n, data.getD (off + k) 0 = other.getD (off' + k) 0) :
    slice data off n = slice other off' n :=
  List.map_congr_left fun k hk => hsame k (List.mem_range.mp hk)

theorem slice_eq_take {pos : ℕ} (hend : pos + n ≤ data.length) :
    slice data pos n = (data.drop pos).take n := by
  apply List.ext_getElem
  · rw [length_slice, List.length_take, List.length_drop]
    omega
  · intro k hk hk'
    rw [length_slice] at hk
    rw [List.getElem_take, List.getElem_drop, ← List.getD_eq_getElem _ 0, getD_slice, if_pos hk,
      List.getD_eq_getElem _ 0 (by omega)]

/-! ## Standing in a block -/

/-- The file, standing at an offset of a block. -/
def Handle.standAt (file : Handle) (block : Block) (off : ℕ) : Handle :=
  { file with block := block, off := off, flags := { file.flags with reading := true } }

/-- The file, `n` bytes on. -/
def Handle.advance (file : Handle) (n : ℕ) : Handle :=
  { file with pos := file.pos + n, off := file.off + n }

theorem ReadsAt.standAt (file : Handle) (blocks : ℕ → Block) :
    ReadsAt lfs (file.standAt (blocks (lfsCtzIndex lfs.cfg.blockSize file.pos).1)
      (lfsCtzIndex lfs.cfg.blockSize file.pos).2) blocks where
  block_eq _ _ _ _ hindex := congrArg blocks hindex.symm
  off_eq _ _ _ := rfl

theorem ReadsAt.advance (hblock : 128 ≤ lfs.cfg.blockSize)
    (hplace : file.block = blocks (lfsCtzIndex lfs.cfg.blockSize file.pos).1)
    (hoff : file.off = (lfsCtzIndex lfs.cfg.blockSize file.pos).2)
    (hroom : file.off + n ≤ lfs.cfg.blockSize) (hword : file.pos + n < 2 ^ 32) :
    ReadsAt lfs (file.advance n) blocks := by
  have hnext : file.off + n ≠ lfs.cfg.blockSize → lfsCtzIndex lfs.cfg.blockSize (file.pos + n) =
      ((lfsCtzIndex lfs.cfg.blockSize file.pos).1,
        (lfsCtzIndex lfs.cfg.blockSize file.pos).2 + n) := by
    intro hne
    apply lfsCtzIndex_add _ _ hblock hword
    rw [← hoff]
    exact lt_of_le_of_ne hroom hne
  constructor
  · intro _ hne p _ hindex
    rw [Handle.advance, hnext hne] at hindex
    rw [hindex]
    exact hplace
  · intro _ hne _
    rw [Handle.advance, hnext hne, hoff]

/-- A read in the block of the position. -/
theorem delivers_readHere (hblock : 128 ≤ lfs.cfg.blockSize)
    (hlist : FileList lfs head size blocks) (hinline : file.flags.inline = false)
    (hplace : file.block = blocks (lfsCtzIndex lfs.cfg.blockSize file.pos).1)
    (hoff : file.off = (lfsCtzIndex lfs.cfg.blockSize file.pos).2) (hpos : 0 < n)
    (hroom : file.off + n ≤ lfs.cfg.blockSize) (hend : file.pos + n ≤ size)
    (hbyte : ∀ p, file.pos ≤ p → p < size → lfs.byteAt blocks p = data.getD p 0) :
    Delivers lfs (readHere file n) (slice data file.pos n) := by
  have hsize := hlist.lt
  have hbytes : slice (lfs.disk file.block).data file.off n = slice data file.pos n := by
    apply slice_eq_slice
    intro k hk
    have hbyte' := hbyte (file.pos + k) (by omega) (by omega)
    rw [Lfs.byteAt, ctzByte, lfsCtzIndex_add _ _ hblock (by omega) (by omega)] at hbyte'
    rw [← hbyte', hplace, hoff]
    rfl
  rw [readHere, if_neg (by simp [hinline]), ← hbytes]
  have hdevice : OnDevice lfs file.block := by
    rw [hplace]
    exact hlist.device _ (hlist.index_le hblock (by omega))
  exact (delivers_readBlock hdevice).bind (Delivers.pure _)

/-- The file stands where its position is: what is behind it can be read up to the end of the
block. -/
structure Stands (lfs : Lfs) (committed others : List Block) (file : Handle) (data : Bytes)
    (own : List Block) : Prop where
  room : file.off < lfs.cfg.blockSize
  reads : ∀ n, 0 < n → file.off + n ≤ lfs.cfg.blockSize → file.pos + n ≤ data.length →
    Delivers lfs (readHere file n) (slice data file.pos n) ∧
      FileMode lfs committed others (file.advance n) data own

theorem InlineFile.standAt (hfile : InlineFile lfs file data)
    (hidle : file.flags.writing = false) :
    InlineFile lfs (file.standAt blockInline file.pos) data :=
  { hfile with
    reading := fun _ _ => rfl
    writing := fun hwriting => absurd (hidle.symm.trans hwriting) Bool.false_ne_true
    started := fun hwriting => absurd (hidle.symm.trans hwriting) Bool.false_ne_true
    apart := fun _ => hidle }

theorem InlineFile.stands (hlimits : BlockLimits lfs) (hfile : InlineFile lfs file data)
    (hidle : file.flags.writing = false) (hpos : file.pos < data.length)
    (hoff : file.off = file.pos) : Stands lfs committed others file data [] where
  room := by
    have hle := hfile.length_le
    have hinline := hlimits.inline_block
    omega
  reads n _ _ hend := by
    constructor
    · have hcache : file.off + n ≤ lfs.cfg.cacheSize := by
        have hle := hfile.length_le
        have hinline := hlimits.inline_cache
        omega
      have hbytes : slice file.cache file.off n = slice data file.pos n := by
        apply slice_eq_slice
        intro k hk
        rw [hoff]
        exact hfile.byte _ (by omega)
      rw [readHere, if_pos hfile.inline, inlineRead, ← hbytes]
      apply Delivers.get_bind
      intro lfs' hreads
      have hcfg : lfs'.cfg = lfs.cfg := by rw [hreads.eq]
      rw [hcfg, if_pos hcache]
      exact Delivers.pure _
    · apply FileMode.inline
      exact
        { hfile with
          length_eq := by
            rw [hfile.length_eq, Handle.length, Handle.length, if_neg (by simp [hidle]),
              if_neg (by simp [Handle.advance, hidle])]
            rfl
          reading := fun _ _ => congrArg (· + n) hoff
          writing := fun hwriting => absurd (hidle.symm.trans hwriting) Bool.false_ne_true
          started := fun hwriting => absurd (hidle.symm.trans hwriting) Bool.false_ne_true }

theorem ListedFile.standAt (hfile : ListedFile lfs committed file data old blocks) :
    ListedFile lfs committed (file.standAt (blocks (lfsCtzIndex lfs.cfg.blockSize file.pos).1)
      (lfsCtzIndex lfs.cfg.blockSize file.pos).2) data old blocks :=
  { hfile with reads := ReadsAt.standAt file blocks }

theorem ListedFile.stands (hblock : 128 ≤ lfs.cfg.blockSize)
    (hfile : ListedFile lfs committed file data old blocks)
    (hplace : file.block = blocks (lfsCtzIndex lfs.cfg.blockSize file.pos).1)
    (hoff : file.off = (lfsCtzIndex lfs.cfg.blockSize file.pos).2)
    (hpos : file.pos < data.length) : Stands lfs committed others file data old where
  room := by
    have hsize := hfile.list.lt
    have hlength := hfile.length_eq
    rw [hoff]
    exact lfsCtzIndex_lt hblock (by omega)
  reads n hn hroom hend := by
    have hsize := hfile.list.lt
    rw [hfile.length_eq] at hend
    constructor
    · exact delivers_readHere hblock hfile.list hfile.inline hplace hoff hn hroom hend
        fun p _ hp => hfile.byte p hp
    · apply FileMode.listed
      exact { hfile with reads := ReadsAt.advance hblock hplace hoff hroom (by omega) }

/-- A file that is being read stands where its position is. -/
theorem FileMode.stands (hlimits : BlockLimits lfs)
    (hmode : FileMode lfs committed others file data own) (hidle : file.flags.writing = false)
    (hreading : file.flags.reading = true) (hroom : file.off ≠ lfs.cfg.blockSize)
    (hpos : file.pos < data.length) : Stands lfs committed others file data own := by
  cases hmode with
  | inline hfile => exact hfile.stands hlimits hidle hpos (hfile.reading hreading hpos)
  | listed hfile =>
      have hsize : file.pos < file.ctz.size := hfile.length_eq ▸ hpos
      exact hfile.stands hlimits.block_ge
        (hfile.reads.block_eq hreading hroom file.pos hsize rfl)
        (hfile.reads.off_eq hreading hroom hsize) hpos
  | writing hfile => exact absurd hfile.writing (by simp [hidle])

/-- The place of the position is found, and the file may stand there. -/
theorem FileMode.place (hlimits : BlockLimits lfs)
    (hmode : FileMode lfs committed others file data own) (hidle : file.flags.writing = false)
    (hpos : file.pos < data.length) :
    ∃ place, Delivers lfs (readPlace file) place ∧ place.2 < lfs.cfg.blockSize ∧
      FileMode lfs committed others (file.standAt place.1 place.2) data own := by
  cases hmode with
  | inline hfile =>
      have hle := hfile.length_le
      have hinline := hlimits.inline_block
      refine ⟨(blockInline, file.pos), ?_, by dsimp only; omega, .inline (hfile.standAt hidle)⟩
      rw [readPlace, if_pos hfile.inline]
      exact Delivers.pure _
  | @listed _ blocks hfile =>
      have hsize := hfile.list.lt
      have hlength := hfile.length_eq
      refine ⟨(blocks (lfsCtzIndex lfs.cfg.blockSize file.pos).1,
        (lfsCtzIndex lfs.cfg.blockSize file.pos).2), ?_,
        lfsCtzIndex_lt hlimits.block_ge (by omega), .listed hfile.standAt⟩
      rw [readPlace, if_neg (by simp [hfile.inline])]
      exact hfile.list.find hlimits.block_ge (by omega)
  | writing hfile => exact absurd hfile.writing (by simp [hidle])

/-! ## The read loop -/

/-- A call on the file behind `key` has come to `array`.  The blocks that the file has not
committed are some of those it had at the start, and fresh ones. -/
structure OpenFile (base : Lfs) (key : ℕ) (committed others start : List Block)
    (array : ByteFile) (file : Handle) (own : List Block) (lfs : Lfs) : Prop where
  serving : Serving base key others file lfs
  represents : Represents lfs committed others file array own
  inv : AllocInv (others ++ own) lfs
  kept : ∀ block ∈ own, block ∈ start ∨ block ∉ others

variable {base : Lfs} {key : ℕ} {start : List Block} {array : ByteFile}

/-- The handle of a file has changed, and with it the array it stands for. -/
theorem OpenFile.modify (hblock : 128 ≤ lfs.cfg.blockSize) {array' : ByteFile}
    {own' : List Block}
    (hopen : OpenFile base key committed others start array file own lfs)
    (change : Handle → Handle) (hkey : (change file).key = file.key)
    (hrepresents : Represents lfs committed others (change file) array' own')
    (hsub : own' ⊆ own) :
    OpenFile base key committed others start array' (change file) own'
      { lfs with mlist := updateHandle lfs.mlist key change } where
  serving := hopen.serving.modify _ (hkey.trans hopen.serving.key_eq)
  represents := hrepresents.frame hblock ⟨rfl⟩ (fun _ _ => rfl) fun _ _ _ h => h
  inv := (hopen.inv.mono (List.append_subset.mpr ⟨List.subset_append_left _ _,
    List.Subset.trans hsub (List.subset_append_right _ _)⟩)).congr rfl rfl rfl
  kept block hmem := hopen.kept block (hsub hmem)

theorem Represents.reads (hblock : 128 ≤ lfs.cfg.blockSize)
    (hfile : Represents lfs committed others file array own) (hreads : Reads lfs lfs') :
    Represents lfs' committed others file array own := by
  have hdisk : lfs'.disk = lfs.disk := by rw [hreads.eq]
  apply hfile.frame hblock ⟨by rw [hreads.eq]⟩ _ fun _ _ _ h => h
  intro block _
  rw [hdisk]

theorem OpenFile.reads (hblock : 128 ≤ lfs.cfg.blockSize)
    (hopen : OpenFile base key committed others start array file own lfs)
    (hreads : Reads lfs lfs') :
    OpenFile base key committed others start array file own lfs' where
  serving := hopen.serving.reads hreads
  represents := hopen.represents.reads hblock hreads
  inv := hopen.inv.congr (by rw [hreads.eq]) (by rw [hreads.eq]) (by rw [hreads.eq])
  kept := hopen.kept

theorem OpenFile.limits (hopen : OpenFile base key committed others start array file own lfs)
    (hlimits : BlockLimits base) : BlockLimits lfs where
  block_ge := by
    rw [hopen.serving.cfg]
    exact hlimits.block_ge
  inline_cache := by
    rw [hopen.serving.cfg, hopen.serving.inlineMax]
    exact hlimits.inline_cache
  inline_block := by
    rw [hopen.serving.cfg, hopen.serving.inlineMax]
    exact hlimits.inline_block
  file_le := by
    rw [hopen.serving.fileMax]
    exact hlimits.file_le
  bits_pos := by
    rw [hopen.serving.cfg]
    exact hlimits.bits_pos
  count_le := by
    rw [hopen.serving.blockCount]
    exact hlimits.count_le

/-- The file at another position. -/
def ByteFile.atPos (array : ByteFile) (pos : ℕ) : ByteFile := { array with pos := pos }

/-- The place of the position is looked up where the file does not stand in it. -/
theorem standInBlock_stands (hsurroundings : Surroundings base key others)
    (hopen : OpenFile base key committed others start array file own lfs)
    (hidle : file.flags.writing = false) (hlt : file.pos < array.data.length) :
    Completes base (standInBlock key) (fun _ lfs' => ∃ file',
      OpenFile base key committed others start array file' own lfs' ∧
        file'.flags.writing = false ∧ file'.pos = file.pos ∧
        Stands lfs' committed others file' array.data own) lfs := by
  have hlimits := hopen.limits hsurroundings.limits
  apply Completes.get_bind
  apply hopen.serving.handle hsurroundings.present
  apply Completes.ite
  · intro _
    obtain ⟨place, hdelivers, hroom, hmode⟩ := hopen.represents.mode.place hlimits hidle hlt
    apply completes_delivers hopen.serving.suffix hdelivers
    intro lfs' hreads
    have hbefore := hopen.reads hlimits.block_ge hreads
    have hlimits' := hbefore.limits hsurroundings.limits
    have hrepresents : Represents lfs committed others (file.standAt place.1 place.2) array own :=
      { hopen.represents with mode := hmode }
    have hafter := hbefore.modify hlimits'.block_ge (fun file =>
      { file with block := place.1, off := place.2, flags := { file.flags with reading := true } })
      rfl (hrepresents.reads hlimits.block_ge hreads) (List.Subset.refl _)
    apply Completes.modify
    refine ⟨_, hafter, hidle, rfl, ?_⟩
    apply hafter.represents.mode.stands (hafter.limits hsurroundings.limits) hidle rfl _ hlt
    intro hfull
    have hcfg : lfs'.cfg = lfs.cfg := by rw [hreads.eq]
    change place.2 = lfs'.cfg.blockSize at hfull
    rw [hcfg] at hfull
    exact absurd hroom (by omega)
  · intro hstanding
    obtain ⟨hreading, hroom⟩ := not_or.mp hstanding
    exact Completes.pure ⟨file, hopen, hidle, rfl,
      hopen.represents.mode.stands hlimits hidle (not_not.mp hreading) hroom hlt⟩

/-- A turn takes some of the next `n` bytes. -/
theorem readTurn_reads (hsurroundings : Surroundings base key others)
    (hopen : OpenFile base key committed others start array file own lfs)
    (hidle : file.flags.writing = false) (hpos : 0 < n)
    (hend : file.pos + n ≤ array.data.length) :
    Completes base (readTurn key n) (fun bytes lfs' => ∃ diff, 0 < diff ∧ diff ≤ n ∧
      bytes = slice array.data file.pos diff ∧ ∃ file',
        OpenFile base key committed others start (array.atPos (file.pos + diff)) file' own lfs' ∧
          file'.flags.writing = false) lfs := by
  apply (standInBlock_stands hsurroundings hopen hidle (by omega)).bind
  intro _ lfs' h
  obtain ⟨file', hopen', hidle', hsame, hstands⟩ := h
  have hroom := hstands.room
  have hblock := (hopen'.limits hsurroundings.limits).block_ge
  apply Completes.get_bind
  apply hopen'.serving.handle hsurroundings.present
  obtain ⟨diff, hdiff⟩ : ∃ diff, min n (lfs'.cfg.blockSize - file'.off) = diff := ⟨_, rfl⟩
  dsimp only
  rw [hdiff]
  obtain ⟨hdelivers, hmode⟩ := hstands.reads diff (by omega) (by omega) (by omega)
  apply completes_delivers hopen'.serving.suffix hdelivers
  intro lfs'' hreads
  have hlength := hopen'.represents.length_le
  have hrepresents : Represents lfs' committed others (file'.advance diff)
      (array.atPos (file.pos + diff)) own :=
    { hopen'.represents with
      pos_eq := congrArg (· + diff) hsame
      pos_le := by
        change file'.pos + diff ≤ _
        omega
      appending := fun _ hwriting => absurd hwriting (by simp [Handle.advance, hidle'])
      mode := hmode }
  have hmoved := (hopen'.reads hblock hreads).modify (by rw [hreads.eq]; exact hblock)
    (fun file => { file with pos := file.pos + diff, off := file.off + diff }) rfl
    (hrepresents.reads hblock hreads) (List.Subset.refl _)
  apply Serving.modify_bind
  apply Completes.pure
  refine ⟨diff, by omega, by omega, ?_, _, hmoved, hidle'⟩
  rw [hsame]

/-- The loop takes the next `n` bytes. -/
theorem flushedreadOpen_reads (hsurroundings : Surroundings base key others) (fuel : ℕ)
    (hopen : OpenFile base key committed others start array file own lfs)
    (hidle : file.flags.writing = false) (hend : file.pos + n ≤ array.data.length)
    (hfuel : n < fuel) :
    Completes base (flushedreadOpen key fuel n)
      (fun bytes lfs' => bytes = slice array.data file.pos n ∧ ∃ file',
        OpenFile base key committed others start (array.atPos (file.pos + n)) file' own lfs' ∧
          file'.flags.writing = false) lfs := by
  induction fuel generalizing n array file lfs with
  | zero => exact absurd hfuel (Nat.not_lt_zero _)
  | succ fuel ih =>
      rw [flushedreadOpen]
      apply Completes.ite
      · intro hzero
        subst hzero
        have harray : array.atPos (file.pos + 0) = array := by
          rw [ByteFile.atPos, Nat.add_zero, hopen.represents.pos_eq]
        exact Completes.pure ⟨rfl, file, harray ▸ hopen, hidle⟩
      · intro hne
        apply (readTurn_reads hsurroundings hopen hidle (Nat.pos_of_ne_zero hne) hend).bind
        intro bytes lfs' h
        obtain ⟨diff, hpos, hle, hbytes, file', hopen', hidle'⟩ := h
        have hlength : bytes.length = diff := by rw [hbytes, length_slice]
        have hpos' : file'.pos = file.pos + diff := hopen'.represents.pos_eq
        have hend' : file'.pos + (n - diff) = file.pos + n := by omega
        rw [hlength]
        apply (ih (n := n - diff) hopen' hidle' (hend'.trans_le hend) (by omega)).bind
        intro rest lfs'' h
        obtain ⟨hrest, file'', hopen'', hidle''⟩ := h
        rw [hend'] at hopen''
        apply Completes.pure
        refine ⟨?_, file'', hopen'', hidle''⟩
        calc bytes ++ rest
            = slice array.data file.pos diff ++ slice array.data (file.pos + diff) (n - diff) := by
              rw [hbytes, hrest, hpos']
              rfl
          _ = slice array.data file.pos (diff + (n - diff)) := slice_add.symm
          _ = slice array.data file.pos n := by rw [Nat.add_sub_cancel' hle]

/-- `lfs_file_flushedread` returns the next bytes, up to the end of the file. -/
theorem lfsFileFlushedreadOpen_reads (hsurroundings : Surroundings base key others)
    (hopen : OpenFile base key committed others start array file own lfs)
    (hidle : file.flags.writing = false) :
    Completes base (lfsFileFlushedreadOpen key n)
      (fun bytes lfs' => bytes = (array.data.drop array.pos).take n ∧ ∃ file',
        OpenFile base key committed others start (array.atPos (array.pos + bytes.length)) file'
            own lfs' ∧
          file'.flags.writing = false) lfs := by
  have hpos := hopen.represents.pos_eq
  have hsize : array.data.length = file.ctz.size := by
    rw [hopen.represents.mode.length_eq, Handle.length, if_neg (by simp [hidle])]
  have hnothing : ∀ bytes : Bytes, bytes = [] → array.data.drop array.pos = [] ∨ n = 0 →
      bytes = (array.data.drop array.pos).take n ∧ ∃ file',
        OpenFile base key committed others start (array.atPos (array.pos + bytes.length)) file'
            own lfs ∧
          file'.flags.writing = false := by
    intro bytes hbytes hnone
    subst hbytes
    refine ⟨?_, file, hopen, hidle⟩
    apply hnone.elim
    · intro h
      rw [h, List.take_nil]
    · intro h
      rw [h, List.take_zero]
  apply Completes.ite
  · exact fun hzero => Completes.pure (hnothing [] rfl (Or.inr hzero))
  · intro _
    apply hopen.serving.handle hsurroundings.present
    apply Completes.ite
    · intro hle
      apply Completes.pure
      apply hnothing [] rfl
      exact Or.inl (List.drop_eq_nil_of_le (by omega))
    · intro hlt
      have hend : file.pos + min n (file.ctz.size - file.pos) ≤ array.data.length := by omega
      apply (flushedreadOpen_reads hsurroundings (n + 2) hopen hidle hend (by omega)).imp
      intro bytes lfs' h
      obtain ⟨hbytes, file', hopen', hidle'⟩ := h
      have hbytes' : bytes = (array.data.drop array.pos).take n := by
        rw [hbytes, slice_eq_take hend, hpos, List.take_eq_take_iff, List.length_drop]
        omega
      refine ⟨hbytes', file', ?_, hidle'⟩
      rw [hbytes, length_slice, ← hpos]
      exact hopen'

end Littlefs
