import Littlefs.Attempts
import Littlefs.FileLists

/-!
# A call on one open file

A call on an open file changes its handle, the window and blocks that nothing else uses.
What is around the file stays: the configuration, the other handles and their blocks, and
all that is committed.
-/

namespace Littlefs

open Program

theorem findHandle_updateHandle {mlist : List Handle} {key : ℕ} {file : Handle}
    (hpresent : ∃ other ∈ mlist, other.key = key) (hkey : file.key = key) :
    findHandle (updateHandle mlist key fun _ => file) key = some file := by
  induction mlist with
  | nil =>
      obtain ⟨other, hmem, -⟩ := hpresent
      exact absurd hmem List.not_mem_nil
  | cons handle rest ih =>
      rw [updateHandle, List.map_cons, findHandle, List.find?_cons]
      by_cases hhandle : handle.key = key
      · simp [hhandle, hkey]
      · have hrest : ∃ other ∈ rest, other.key = key := by
          obtain ⟨other, hmem, hother⟩ := hpresent
          apply (List.mem_cons.mp hmem).elim
          · intro heq
            exact absurd (heq ▸ hother) hhandle
          · exact fun hmem => ⟨other, hmem, hother⟩
        have hother : (handle.key == key) = false := by simpa using hhandle
        rw [hother, if_neg Bool.false_ne_true, hother]
        exact ih hrest

/-- A handle in its new state, changed once more. -/
theorem updateHandle_updateHandle {mlist : List Handle} {key : ℕ} {file : Handle}
    (hkey : file.key = key) (update : Handle → Handle) :
    updateHandle (updateHandle mlist key fun _ => file) key update =
      updateHandle mlist key fun _ => update file := by
  rw [updateHandle, updateHandle, updateHandle, List.map_map]
  apply List.map_congr_left
  intro handle _
  rw [Function.comp_apply]
  by_cases hhandle : handle.key = key
  · simp [hhandle, hkey]
  · simp [hhandle]

/-- `base`, with `file` behind `key` and the blocks of `others` as they were. -/
structure Serving (base : Lfs) (key : ℕ) (others : List Block) (file : Handle) (lfs : Lfs) :
    Prop where
  eq : lfs = { base with disk := lfs.disk, script := lfs.script, lookahead := lfs.lookahead,
                         mlist := updateHandle base.mlist key fun _ => file }
  suffix : lfs.script <:+ base.script
  key_eq : file.key = key
  agree : AgreeOn others base.disk lfs.disk

/-- The limits of an accepted configuration, with no block where `blockInline` stands. -/
structure BlockLimits (lfs : Lfs) : Prop where
  block_ge : 128 ≤ lfs.cfg.blockSize
  inline_cache : lfs.inlineMax ≤ lfs.cfg.cacheSize
  inline_block : lfs.inlineMax < lfs.cfg.blockSize
  file_le : lfs.fileMax ≤ lfsFileMax
  bits_pos : 0 < Lookahead.lookaheadBits lfs.cfg.lookaheadSize
  count_le : lfs.blockCount ≤ blockInline

/-- What is around the file behind `key`: whatever its handle becomes, a traversal finds the
blocks of `others`, and those that the file has not committed. -/
structure Surroundings (base : Lfs) (key : ℕ) (others : List Block) : Prop where
  limits : BlockLimits base
  present : ∃ file ∈ base.mlist, file.key = key
  reported : ∀ file lfs own, Serving base key others file lfs → Pends lfs file own →
    ∃ blocks, reported lfs = some blocks ∧ ∀ block, block ∈ blocks ↔ block ∈ others ++ own

namespace Serving

variable {base lfs lfs' : Lfs} {key : ℕ} {others used : List Block} {file : Handle}

theorem sameFs (hserving : Serving base key others file lfs) : SameFs base lfs where
  eq := by
    have heq := hserving.eq
    rw [heq]

theorem cfg (hserving : Serving base key others file lfs) : lfs.cfg = base.cfg :=
  hserving.sameFs.cfg

theorem inlineMax (hserving : Serving base key others file lfs) :
    lfs.inlineMax = base.inlineMax := by
  rw [hserving.eq]

theorem fileMax (hserving : Serving base key others file lfs) : lfs.fileMax = base.fileMax := by
  rw [hserving.eq]

theorem progBad (hserving : Serving base key others file lfs) : lfs.progBad = base.progBad := by
  rw [hserving.eq]

theorem blockCount (hserving : Serving base key others file lfs) :
    lfs.blockCount = base.blockCount :=
  hserving.sameFs.blockCount

/-- The handle is found. -/
theorem outcome_handle {α : Type} {next : Handle → FsM α} {post : α → Lfs → Prop}
    {fail : Fault → Lfs → Prop} (hserving : Serving base key others file lfs)
    (hpresent : ∃ file ∈ base.mlist, file.key = key)
    (hnext : Outcome (next file) post fail lfs) :
    Outcome (getHandle key >>= next) post fail lfs := by
  have hfound : findHandle lfs.mlist key = some file := by
    rw [hserving.eq]
    exact findHandle_updateHandle hpresent hserving.key_eq
  have hrun : getHandle key lfs = .ok file lfs := by
    rw [getHandle, bind_of_ok (show (get : FsM Lfs) lfs = .ok lfs lfs from rfl), hfound]
    rfl
  unfold Outcome at *
  rw [bind_of_ok hrun]
  exact hnext

theorem handle {α : Type} {next : Handle → FsM α} {post : α → Lfs → Prop} {bound : Lfs}
    (hserving : Serving base key others file lfs) (hpresent : ∃ file ∈ base.mlist, file.key = key)
    (hnext : Completes bound (next file) post lfs) :
    Completes bound (getHandle key >>= next) post lfs :=
  hserving.outcome_handle hpresent hnext

/-- The handle is changed. -/
theorem modify (hserving : Serving base key others file lfs) (change : Handle → Handle)
    (hkey : (change file).key = key) :
    Serving base key others (change file)
      { lfs with mlist := updateHandle lfs.mlist key change } where
  eq := by
    have hmlist : updateHandle lfs.mlist key change =
        updateHandle base.mlist key fun _ => change file := by
      rw [hserving.eq]
      exact updateHandle_updateHandle hserving.key_eq change
    rw [hmlist, hserving.eq]
  suffix := hserving.suffix
  key_eq := hkey
  agree := hserving.agree

theorem modify_bind {α : Type} {next : Unit → FsM α} {post : α → Lfs → Prop} {bound : Lfs}
    {update : Handle → Handle}
    (hnext : Completes bound (next ()) post
      { lfs with mlist := updateHandle lfs.mlist key update }) :
    Completes bound (modifyHandle key update >>= next) post lfs := hnext

theorem reads (hserving : Serving base key others file lfs) (hreads : Reads lfs lfs') :
    Serving base key others file lfs' where
  eq := by rw [hreads.eq, hserving.eq]
  suffix := hreads.suffix.trans hserving.suffix
  key_eq := hserving.key_eq
  agree := by
    rw [hreads.eq]
    exact hserving.agree

theorem wrote (hserving : Serving base key others file lfs) {block : Block} {image : BlockImage}
    (hfree : block ∉ others) (hwrote : Wrote block image lfs lfs') :
    Serving base key others file lfs' where
  eq := by rw [hwrote.eq, hserving.eq]
  suffix := hwrote.suffix.trans hserving.suffix
  key_eq := hserving.key_eq
  agree := by
    rw [hwrote.eq]
    intro other hother
    have hne : other ≠ block := fun heq => hfree (heq ▸ hother)
    dsimp only
    rw [Function.update_of_ne hne]
    exact hserving.agree other hother

theorem trying (hserving : Serving base key others file lfs) (htrying : Trying used lfs lfs')
    (hsub : others ⊆ used) : Serving base key others file lfs' where
  eq := by
    have heq := htrying.eq
    rw [heq, hserving.eq]
  suffix := htrying.suffix.trans hserving.suffix
  key_eq := hserving.key_eq
  agree block hblock := by
    rw [htrying.agree block (hsub hblock), hserving.agree block hblock]

theorem checkpoint (hserving : Serving base key others file lfs) :
    Serving base key others file
      { lfs with lookahead := lfs.lookahead.checkpoint lfs.blockCount } where
  eq := by rw [hserving.eq]
  suffix := hserving.suffix
  key_eq := hserving.key_eq
  agree := hserving.agree

/-- One call after another. -/
theorem trans {file' : Handle} (hserving : Serving base key others file lfs)
    (hagain : Serving lfs key others file' lfs') : Serving base key others file' lfs' where
  eq := by
    have hmlist : updateHandle lfs.mlist key (fun _ => file') =
        updateHandle base.mlist key fun _ => file' := by
      rw [hserving.eq]
      exact updateHandle_updateHandle hserving.key_eq _
    have heq := hagain.eq
    rw [hmlist] at heq
    rw [heq, hserving.eq]
  suffix := hagain.suffix.trans hserving.suffix
  key_eq := hagain.key_eq
  agree block hblock := by rw [hagain.agree block hblock, hserving.agree block hblock]

end Serving

/-- The window forgets the blocks handed out before. -/
theorem completes_ckpoint {α : Type} {next : Unit → FsM α} {post : α → Lfs → Prop}
    {bound lfs : Lfs}
    (hnext : Completes bound (next ()) post
      { lfs with lookahead := lfs.lookahead.checkpoint lfs.blockCount }) :
    Completes bound (lfsAllocCkpoint >>= next) post lfs := hnext

/-- A call whose error marks the file as `ERRED` fails as it would without the mark. -/
theorem completes_orErr {α : Type} {program : FsM α} {post : α → Lfs → Prop} {bound lfs : Lfs}
    {key : ℕ} (hprogram : Completes bound program post lfs) :
    Completes bound (orErr key program) post lfs := by
  apply outcome_bind.mpr
  apply Outcome.tryError hprogram
  · exact fun value lfs' h => h
  · exact fun e lfs' h => h
  · exact fun fault lfs' _ h => h

/-- A program that reads ends with what it delivers, unless the device gives out. -/
theorem completes_of_delivers {β : Type} {program : FsM β} {data : β} {bound lfs : Lfs}
    (hsuffix : lfs.script <:+ bound.script) (hdelivers : Delivers lfs program data) :
    Completes bound program (fun value lfs' => value = data ∧ Reads lfs lfs') lfs := by
  apply (hdelivers lfs (Reads.refl lfs)).imp
  · exact fun value lfs' h => h
  · intro failure lfs' h
    have hdefeated : Defeated lfs failure := Or.inr h.2
    exact hdefeated.widen hsuffix

/-- What is read leaves the file as it is. -/
theorem completes_delivers {α β : Type} {program : FsM β} {data : β} {next : β → FsM α}
    {post : α → Lfs → Prop} {bound lfs : Lfs} (hsuffix : lfs.script <:+ bound.script)
    (hdelivers : Delivers lfs program data)
    (hnext : ∀ lfs', Reads lfs lfs' → Completes bound (next data) post lfs') :
    Completes bound (program >>= next) post lfs := by
  apply (completes_of_delivers hsuffix hdelivers).bind
  intro value lfs' h
  rw [h.1]
  exact hnext lfs' h.2

end Littlefs
