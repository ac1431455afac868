import Littlefs.FreshLists

/-!
# Writing an open file

The loop of `lfs_file_flushedwrite` makes a place for the next byte, programs what fits the
block and goes on behind it.  While it runs, nothing but the last block is written, and the
list that the struct of the file names stays readable.
-/

namespace Littlefs

open Program SkipLists

variable {base lfs lfs' : Lfs} {key stop : ℕ} {file : Handle} {data : Bytes} {blocks : ℕ → Block}
  {committed others start old used own own' : List Block} {nblock : Block}

/-! ## Around a file that is written -/

/-- What is around a file, with its blocks at the start of a call. -/
structure Setting (base : Lfs) (key : ℕ) (committed others start : List Block) : Prop
    extends Surroundings base key others where
  committed_sub : committed ⊆ others
  committed_kept : committed ⊆ start
  inline_kept : blockInline ∈ start

theorem Serving.mono (hserving : Serving base key others file lfs) {fewer : List Block}
    (hsub : fewer ⊆ others) : Serving base key fewer file lfs where
  eq := hserving.eq
  suffix := hserving.suffix
  key_eq := hserving.key_eq
  agree := hserving.agree.mono hsub

theorem Serving.limits (hserving : Serving base key others file lfs) (hlimits : BlockLimits base) :
    BlockLimits lfs where
  block_ge := hserving.cfg ▸ hlimits.block_ge
  inline_cache := by
    rw [hserving.cfg, hserving.inlineMax]
    exact hlimits.inline_cache
  inline_block := by
    rw [hserving.cfg, hserving.inlineMax]
    exact hlimits.inline_block
  file_le := hserving.fileMax ▸ hlimits.file_le
  bits_pos := hserving.cfg ▸ hlimits.bits_pos
  count_le := hserving.blockCount ▸ hlimits.count_le

/-- What is around a file stays around it. -/
theorem Setting.later (hsetting : Setting base key committed others start)
    (hserving : Serving base key others file lfs) : Setting lfs key committed others start where
  limits := hserving.limits hsetting.limits
  present := by
    have hfound := findHandle_updateHandle hsetting.present hserving.key_eq
    rw [hserving.eq]
    exact ⟨file, List.mem_of_find?_eq_some hfound, hserving.key_eq⟩
  reported file' lfs' own' hserving' hpends :=
    hsetting.reported file' lfs' own' (hserving.trans hserving') hpends
  committed_sub := hsetting.committed_sub
  committed_kept := hsetting.committed_kept
  inline_kept := hsetting.inline_kept

/-- The file serves from here on. -/
theorem Serving.here (hserving : Serving base key others file lfs) (others' : List Block) :
    Serving lfs key others' file lfs where
  eq := by
    have hmlist : updateHandle lfs.mlist key (fun _ => file) = lfs.mlist := by
      rw [hserving.eq]
      exact updateHandle_updateHandle hserving.key_eq _
    rw [hmlist]
  suffix := List.suffix_rfl
  key_eq := hserving.key_eq
  agree _ _ := rfl

/-- Two handles of one file, between two flushes. -/
structure SameStruct (origin file : Handle) : Prop where
  type_eq : file.type = origin.type
  append_eq : file.flags.append = origin.flags.append
  ctz_eq : file.ctz = origin.ctz
  dirty_eq : file.flags.dirty = origin.flags.dirty

/-- A write on the file `origin` has come to `file`; `old` is what a traversal reports of the
list that the struct of the file names. -/
structure Carrying (base : Lfs) (key : ℕ) (others start old : List Block) (origin file : Handle)
    (own : List Block) (lfs : Lfs) : Prop where
  serving : Serving base key (others ++ old) file lfs
  inv : AllocInv (others ++ own) lfs
  kept : ∀ block ∈ own, block ∈ start ∨ block ∉ others
  old_sub : old ⊆ own
  struct : SameStruct origin file

variable {origin : Handle}

namespace Carrying

theorem frame_sub (_hcarrying : Carrying base key others start old origin file own lfs)
    (hsetting : Setting base key committed others start) : committed ++ old ⊆ others ++ old :=
  List.append_subset.mpr ⟨List.Subset.trans hsetting.committed_sub (List.subset_append_left _ _),
    List.subset_append_right _ _⟩

theorem limits (hcarrying : Carrying base key others start old origin file own lfs)
    (hsetting : Setting base key committed others start) : BlockLimits lfs :=
  hcarrying.serving.limits hsetting.limits

/-- The handle of the file changes, between two flushes. -/
theorem modify (hcarrying : Carrying base key others start old origin file own lfs)
    (change : Handle → Handle) (hkey : (change file).key = file.key)
    (hstruct : SameStruct file (change file)) :
    Carrying base key others start old origin (change file) own
      { lfs with mlist := updateHandle lfs.mlist key change } where
  serving := hcarrying.serving.modify _ (hkey.trans hcarrying.serving.key_eq)
  inv := hcarrying.inv.congr rfl rfl rfl
  kept := hcarrying.kept
  old_sub := hcarrying.old_sub
  struct :=
    { type_eq := hstruct.type_eq.trans hcarrying.struct.type_eq
      append_eq := hstruct.append_eq.trans hcarrying.struct.append_eq
      ctz_eq := hstruct.ctz_eq.trans hcarrying.struct.ctz_eq
      dirty_eq := hstruct.dirty_eq.trans hcarrying.struct.dirty_eq }

theorem reads (hcarrying : Carrying base key others start old origin file own lfs)
    (hreads : Reads lfs lfs') : Carrying base key others start old origin file own lfs' where
  serving := hcarrying.serving.reads hreads
  inv := hcarrying.inv.congr (by rw [hreads.eq]) (by rw [hreads.eq]) (by rw [hreads.eq])
  kept := hcarrying.kept
  old_sub := hcarrying.old_sub
  struct := hcarrying.struct

theorem checkpoint (hcarrying : Carrying base key others start old origin file own lfs) :
    Carrying base key others start old origin file own
      { lfs with lookahead := lfs.lookahead.checkpoint lfs.blockCount } where
  serving := hcarrying.serving.checkpoint
  inv := hcarrying.inv.checkpoint
  kept := hcarrying.kept
  old_sub := hcarrying.old_sub
  struct := hcarrying.struct

/-- A block of the file's own is written. -/
theorem wrote (hcarrying : Carrying base key others start old origin file own lfs)
    {block : Block} {image : BlockImage} (hfree : block ∉ others ++ old)
    (hwrote : Wrote block image lfs lfs') :
    Carrying base key others start old origin file own lfs' where
  serving := hcarrying.serving.wrote hfree hwrote
  inv := hcarrying.inv.congr (by rw [hwrote.eq]) (by rw [hwrote.eq]) (by rw [hwrote.eq])
  kept := hcarrying.kept
  old_sub := hcarrying.old_sub
  struct := hcarrying.struct

/-- Before an allocation: the traversal finds the blocks around the file and its own. -/
theorem allocates (hcarrying : Carrying base key others start old origin file own lfs)
    (hsetting : Setting base key committed others start) (hpends : Pends lfs file own) :
    ∃ used, reported lfs = some used ∧ AllocInv used lfs ∧ others ++ own ⊆ used := by
  obtain ⟨used, hreported, hmem⟩ := hsetting.reported file lfs own
    (hcarrying.serving.mono (List.subset_append_left _ _)) hpends
  exact ⟨used, hreported, hcarrying.inv.mono fun block hblock => (hmem block).mp hblock,
    fun block hblock => (hmem block).mpr hblock⟩

/-- A block was granted, and the file goes on with it and with blocks that were listed. -/
theorem granted (hcarrying : Carrying base key others start old origin file own lfs)
    (hsetting : Setting base key committed others start) (hsub : others ++ own ⊆ used)
    (hgranted : Granted used lfs nblock lfs') (hold : old ⊆ own')
    (hown : ∀ block ∈ own', block = nblock ∨ block ∈ committed ++ own) :
    Carrying base key others start old origin file own' lfs' where
  serving := hcarrying.serving.trying hgranted.toTrying (List.Subset.trans
    (List.append_subset.mpr ⟨List.subset_append_left _ _,
      List.Subset.trans hcarrying.old_sub (List.subset_append_right _ _)⟩) hsub)
  inv := by
    apply hgranted.held.mono
    apply List.append_subset.mpr
    constructor
    · exact fun block hblock => List.mem_cons_of_mem _ (hsub (List.mem_append_left _ hblock))
    · intro block hblock
      apply (hown block hblock).elim
      · exact fun heq => heq ▸ List.mem_cons_self
      · intro hmem
        apply List.mem_cons_of_mem
        apply hsub
        apply (List.mem_append.mp hmem).elim
        · exact fun h => List.mem_append_left _ (hsetting.committed_sub h)
        · exact fun h => List.mem_append_right _ h
  kept block hblock := by
    apply (hown block hblock).elim
    · intro heq
      exact Or.inr fun hmem => hgranted.free (heq ▸ hsub (List.mem_append_left _ hmem))
    · intro hmem
      apply (List.mem_append.mp hmem).elim
      · exact fun h => Or.inl (hsetting.committed_kept h)
      · exact fun h => hcarrying.kept block h
  old_sub := hold
  struct := hcarrying.struct

/-- The file goes on with fewer blocks. -/
theorem shrink (hcarrying : Carrying base key others start old origin file own lfs)
    (hold : old ⊆ own') (hsub : own' ⊆ own) :
    Carrying base key others start old origin file own' lfs where
  serving := hcarrying.serving
  inv := hcarrying.inv.mono (List.append_subset.mpr ⟨List.subset_append_left _ _,
    List.Subset.trans hsub (List.subset_append_right _ _)⟩)
  kept block hmem := hcarrying.kept block (hsub hmem)
  old_sub := hold
  struct := hcarrying.struct

end Carrying

theorem AllocInv.fuel (hinv : AllocInv used lfs) : lfs.lookahead.ckpoint < retryFuel := by
  have hckpoint := hinv.valid.ckpoint_le
  have hbound := hinv.valid.bound
  have hretry : retryFuel = 2 ^ 32 + 2 := rfl
  omega

/-! ## Relocating -/

/-- The file in a block of its own. -/
def Handle.relocated (file : Handle) (nblock : Block) : Handle :=
  { file with block := nblock, flags := { file.flags with writing := true } }

/-- What `lfs_file_relocate` does when nothing is written in the block yet, or the data are
inline. -/
def Relocates (used : List Block) (key : ℕ) (file : Handle) (lfs lfs' : Lfs) : Prop :=
  ∃ nblock middle, Granted used lfs nblock middle ∧
    lfs' = { middle with
      mlist := updateHandle middle.mlist key fun file => file.relocated nblock } ∧
    (file.off = 0 → middle.lookahead.ckpoint < lfs.lookahead.ckpoint) ∧
    (file.off ≠ 0 → lfs.progBad nblock = false ∧
      diskBytes middle.disk nblock = slice file.cache 0 file.off)

theorem lfsFileRelocateGo_relocates (hpresent : ∃ file ∈ base.mlist, file.key = key)
    (hserving : Serving base key others file lfs) (hreported : reported lfs = some used)
    (hsub : others ⊆ used) (hbits : 0 < Lookahead.lookaheadBits lfs.cfg.lookaheadSize)
    (hmode : file.off ≠ 0 → file.flags.inline = true ∧ file.off ≤ lfs.cfg.cacheSize)
    (fuel : ℕ) {now : Lfs} (hfuel : now.lookahead.ckpoint < fuel)
    (hle : now.lookahead.ckpoint ≤ lfs.lookahead.ckpoint) (htrying : Trying used lfs now) :
    Completes lfs (lfsFileRelocateGo key fuel) (fun _ => Relocates used key file lfs) now := by
  induction fuel generalizing now with
  | zero => exact absurd hfuel (Nat.not_lt_zero _)
  | succ fuel ih =>
      rw [lfsFileRelocateGo]
      apply completes_fresh hreported hbits htrying
      · exact fun lfs' htrying hcount => ih (by omega) (by omega) htrying
      · intro nblock middle hgranted hcount herased
        apply (hserving.trying hgranted.toTrying hsub).handle hpresent
        by_cases hzero : file.off = 0
        · simp only [hzero, if_true, pure_bind]
          exact ⟨nblock, middle, hgranted, rfl, fun _ => hcount.trans_le hle,
            fun h => absurd hzero h⟩
        · obtain ⟨hinline, hcache⟩ := hmode hzero
          have hread : Delivers middle (inlineRead file 0 file.off)
              (slice file.cache 0 file.off) := by
            apply Delivers.get_bind
            intro lfs' hreads
            have hcfg : lfs'.cfg = lfs.cfg := by rw [hreads.eq, hgranted.cfg]
            rw [hcfg, if_pos (by omega)]
            exact Delivers.pure _
          simp only [if_neg hzero, if_pos hinline]
          apply completes_delivers hgranted.suffix hread
          intro lfs' hreads
          apply completes_prog (hgranted.reads hreads) (by rw [hreads.eq]; exact herased)
            (show lfs'.lookahead.ckpoint < now.lookahead.ckpoint by rw [hreads.eq]; exact hcount)
          · exact fun lfs' htrying hcount => ih (by omega) (by omega) htrying
          · intro after hwritten hgood hbytes
            exact ⟨nblock, after, hwritten, rfl, fun h => absurd h hzero, fun _ => ⟨hgood, hbytes⟩⟩

/-- `lfs_file_relocate` finds a block. -/
theorem Carrying.relocates (hcarrying : Carrying base key others start old origin file own lfs)
    (hsetting : Setting base key committed others start) (hreported : reported lfs = some used)
    (hinv : AllocInv used lfs) (hsub : others ++ own ⊆ used)
    (hmode : file.off ≠ 0 → file.flags.inline = true ∧ file.off ≤ lfs.cfg.cacheSize) :
    Completes lfs (lfsFileRelocate key) (fun _ => Relocates used key file lfs) lfs :=
  lfsFileRelocateGo_relocates hsetting.present hcarrying.serving hreported
    (List.Subset.trans (List.append_subset.mpr ⟨List.subset_append_left _ _,
      List.Subset.trans hcarrying.old_sub (List.subset_append_right _ _)⟩) hsub)
    (hcarrying.limits hsetting).bits_pos hmode retryFuel hinv.fuel (le_refl _) (Trying.start hinv)

end Littlefs
