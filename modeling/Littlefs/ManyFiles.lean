import Littlefs.FileCalls

/-!
# Several open files

Calls on several files, in any order.  Each of them is served as an array of its own, and
the others notice nothing: their blocks are reported to the allocator, and a call writes
blocks that nothing else uses.
-/

namespace Littlefs

open Program SkipLists

variable {lfs lfs' : Lfs} {committed : List Block} {arrays : ℕ → ByteFile}
  {own : ℕ → List Block} {file : Handle} {key : ℕ} {block : Block}

/-- The blocks of everything but the file behind `key`. -/
def around (lfs : Lfs) (committed : List Block) (own : ℕ → List Block) (key : ℕ) : List Block :=
  committed ++ (lfs.mlist.filter fun file => file.key ≠ key).flatMap fun file => own file.key

theorem mem_around : block ∈ around lfs committed own key ↔
    block ∈ committed ∨ ∃ other ∈ lfs.mlist, other.key ≠ key ∧ block ∈ own other.key := by
  rw [around, List.mem_append, List.mem_flatMap]
  simp only [List.mem_filter, decide_eq_true_eq, and_assoc]

/-- The open files stand for arrays, the one behind `key` for `arrays key`; it has `own key`
blocks that are not committed. -/
structure FilesOpen (lfs : Lfs) (committed : List Block) (arrays : ℕ → ByteFile)
    (own : ℕ → List Block) : Prop where
  limits : BlockLimits lfs
  reported : reported (lfs.withMlist []) = some committed
  nodup : (lfs.mlist.map Handle.key).Nodup
  file : ∀ file ∈ lfs.mlist, file.type = .reg →
    Represents lfs committed (around lfs committed own file.key) file (arrays file.key)
      (own file.key)
  dir : ∀ file ∈ lfs.mlist, file.type ≠ .reg → own file.key = []
  inv : AllocInv (committed ++ lfs.mlist.flatMap fun file => own file.key) lfs

/-! ## Handles behind keys -/

/-- One key, one handle. -/
theorem eq_of_key {mlist : List Handle} (hnodup : (mlist.map Handle.key).Nodup)
    {other : Handle} (hfile : file ∈ mlist) (hother : other ∈ mlist)
    (hkey : file.key = other.key) : file = other :=
  List.inj_on_of_nodup_map hnodup hfile hother hkey

theorem updateHandle_eq_map (mlist : List Handle) (key : ℕ) (file : Handle) :
    updateHandle mlist key (fun _ => file) =
      mlist.map fun other => if other.key = key then file else other := by
  simp only [updateHandle, beq_iff_eq]

theorem updateHandle_same {mlist : List Handle} (hnodup : (mlist.map Handle.key).Nodup)
    (hfile : file ∈ mlist) : updateHandle mlist file.key (fun _ => file) = mlist := by
  have hsame : ∀ other ∈ mlist, (if other.key = file.key then file else other) = other := by
    intro other hother
    split
    · rename_i hkey
      exact (eq_of_key hnodup hother hfile hkey).symm
    · rfl
  rw [updateHandle_eq_map, List.map_congr_left hsame, List.map_id']

theorem keys_updateHandle (mlist : List Handle) (hkey : file.key = key) :
    (updateHandle mlist key fun _ => file).map Handle.key = mlist.map Handle.key := by
  rw [updateHandle_eq_map, List.map_map]
  apply List.map_congr_left
  intro other _
  rw [Function.comp_apply]
  by_cases hother : other.key = key
  · rw [if_pos hother, hkey, hother]
  · rw [if_neg hother]

theorem mem_updateHandle {mlist : List Handle} {other : Handle} :
    other ∈ updateHandle mlist key (fun _ => file) ↔
      (other ∈ mlist ∧ other.key ≠ key) ∨ (other = file ∧ ∃ old ∈ mlist, old.key = key) := by
  rw [updateHandle_eq_map, List.mem_map]
  constructor
  · intro h
    obtain ⟨old, hold, heq⟩ := h
    by_cases hkey : old.key = key
    · rw [if_pos hkey] at heq
      exact Or.inr ⟨heq.symm, old, hold, hkey⟩
    · rw [if_neg hkey] at heq
      exact Or.inl ⟨heq ▸ hold, heq ▸ hkey⟩
  · intro h
    apply h.elim
    · intro hother
      exact ⟨other, hother.1, if_neg hother.2⟩
    · intro hfile
      obtain ⟨heq, old, hold, hkey⟩ := hfile
      exact ⟨old, hold, by rw [if_pos hkey, heq]⟩

/-! ## What is around a file -/

namespace FilesOpen

theorem pends (hopen : FilesOpen lfs committed arrays own) (hfile : file ∈ lfs.mlist) :
    Pends lfs file (own file.key) := by
  by_cases htype : file.type = .reg
  · exact (hopen.file file hfile htype).mode.pends hopen.limits.block_ge htype
  · rw [hopen.dir file hfile htype, Pends, traverseFile, if_pos htype]
    rfl

/-- The blocks of the other handles, where one file has others. -/
theorem pends_update (hopen : FilesOpen lfs committed arrays own)
    (hserving : Serving lfs key (around lfs committed own key) file lfs') {own' : List Block}
    (hpends : Pends lfs' file own') : ∀ other ∈ lfs'.mlist,
      Pends lfs' other (Function.update own key own' other.key) := by
  have hmlist : lfs'.mlist = updateHandle lfs.mlist key fun _ => file := by rw [hserving.eq]
  intro other hother
  rw [hmlist] at hother
  apply (mem_updateHandle.mp hother).elim
  · intro hkept
    rw [Function.update_of_ne hkept.2]
    apply (hopen.pends hkept.1).frame hserving.sameFs
    exact hserving.agree.mono fun block hblock =>
      mem_around.mpr (Or.inr ⟨other, hkept.1, hkept.2, hblock⟩)
  · intro hnew
    rw [hnew.1, hserving.key_eq, Function.update_self]
    exact hpends

/-- The blocks of all handles are those around the file and its own. -/
theorem mem_flatMap_update (hserving : Serving lfs key (around lfs committed own key) file lfs')
    (hpresent : ∃ old ∈ lfs.mlist, old.key = key) {own' : List Block} :
    block ∈ committed ++ lfs'.mlist.flatMap (fun other =>
        Function.update own key own' other.key) ↔
      block ∈ around lfs committed own key ++ own' := by
  have hmlist : lfs'.mlist = updateHandle lfs.mlist key fun _ => file := by rw [hserving.eq]
  rw [List.mem_append, List.mem_append, mem_around, List.mem_flatMap, or_assoc, hmlist]
  apply or_congr_right
  constructor
  · intro h
    obtain ⟨other, hother, hblock⟩ := h
    apply (mem_updateHandle.mp hother).elim
    · intro hkept
      rw [Function.update_of_ne hkept.2] at hblock
      exact Or.inl ⟨other, hkept.1, hkept.2, hblock⟩
    · intro hnew
      rw [hnew.1, hserving.key_eq, Function.update_self] at hblock
      exact Or.inr hblock
  · intro h
    apply h.elim
    · intro hkept
      obtain ⟨other, hother, hkey, hblock⟩ := hkept
      refine ⟨other, mem_updateHandle.mpr (Or.inl ⟨hother, hkey⟩), ?_⟩
      rw [Function.update_of_ne hkey]
      exact hblock
    · intro hblock
      refine ⟨file, mem_updateHandle.mpr (Or.inr ⟨rfl, hpresent⟩), ?_⟩
      rw [hserving.key_eq, Function.update_self]
      exact hblock

theorem setting (hopen : FilesOpen lfs committed arrays own)
    (hpresent : ∃ old ∈ lfs.mlist, old.key = key) :
    Setting lfs key committed (around lfs committed own key)
      (blockInline :: (committed ++ own key)) where
  limits := hopen.limits
  present := hpresent
  reported file lfs' own' hserving hpends := by
    have hclosed := reported_closed hopen.reported hserving.sameFs
      (hserving.agree.mono fun block hblock => mem_around.mpr (Or.inl hblock))
    refine ⟨_, reported_of_pends hclosed (hopen.pends_update hserving hpends), ?_⟩
    exact fun block => mem_flatMap_update hserving hpresent
  committed_sub block hblock := mem_around.mpr (Or.inl hblock)
  committed_kept block hblock := List.mem_cons_of_mem _ (List.mem_append_left _ hblock)
  inline_kept := List.mem_cons_self

/-- A file, as a call on it finds it. -/
theorem openFile (hopen : FilesOpen lfs committed arrays own) (hfile : file ∈ lfs.mlist)
    (htype : file.type = .reg) :
    OpenFile lfs file.key committed (around lfs committed own file.key)
      (blockInline :: (committed ++ own file.key)) (arrays file.key) file (own file.key) lfs where
  serving :=
    { eq := by rw [updateHandle_same hopen.nodup hfile]
      suffix := List.suffix_rfl
      key_eq := rfl
      agree := fun _ _ => rfl }
  represents := hopen.file file hfile htype
  inv := by
    apply hopen.inv.mono
    intro block hblock
    apply (List.mem_append.mp hblock).elim
    · intro haround
      apply (mem_around.mp haround).elim
      · exact fun h => List.mem_append_left _ h
      · intro h
        obtain ⟨other, hother, -, hown⟩ := h
        exact List.mem_append_right _ (List.mem_flatMap.mpr ⟨other, hother, hown⟩)
    · exact fun h => List.mem_append_right _ (List.mem_flatMap.mpr ⟨file, hfile, h⟩)
  kept block hblock := Or.inl (List.mem_cons_of_mem _ (List.mem_append_right _ hblock))

/-- The blocks around another file, after a call that took fresh ones. -/
theorem around_step (hopen : FilesOpen lfs committed arrays own)
    {file' : Handle} {own' : List Block}
    (hserving : Serving lfs key (around lfs committed own key) file' lfs')
    (hkept : ∀ block ∈ own', block ∈ blockInline :: (committed ++ own key) ∨
      block ∉ around lfs committed own key)
    {other : Handle} (hother : other ∈ lfs.mlist) (hkey : other.key ≠ key)
    (hpresent : ∃ old ∈ lfs.mlist, old.key = key) (hblock : block ∈ own other.key)
    (hdevice : OnDevice lfs block) (hfree : block ∉ around lfs committed own other.key) :
    block ∉ around lfs' committed (Function.update own key own') other.key := by
  intro hmem
  apply hfree
  apply (mem_around.mp hmem).elim
  · exact fun h => mem_around.mpr (Or.inl h)
  · intro h
    obtain ⟨third, hthird, hdiffers, hin⟩ := h
    rw [show lfs'.mlist = updateHandle lfs.mlist key fun _ => file' by rw [hserving.eq]] at hthird
    apply (mem_updateHandle.mp hthird).elim
    · intro h
      rw [Function.update_of_ne h.2] at hin
      exact mem_around.mpr (Or.inr ⟨third, h.1, hdiffers, hin⟩)
    · intro h
      rw [h.1, hserving.key_eq, Function.update_self] at hin
      -- the file that was called had the block before, or took it as a fresh one
      apply (hkept block hin).elim
      · intro hstart
        apply (List.mem_cons.mp hstart).elim
        · intro hinline
          exfalso
          apply hdevice
          have hpos := hopen.inv.valid.pos
          have hcount := hopen.limits.count_le
          rw [hinline]
          exact ⟨hpos.ne', hcount⟩
        · intro hold
          apply (List.mem_append.mp hold).elim
          · exact fun h => mem_around.mpr (Or.inl h)
          · intro hown
            obtain ⟨old, hold, hkeyed⟩ := hpresent
            refine mem_around.mpr (Or.inr ⟨old, hold, ?_, hkeyed ▸ hown⟩)
            rw [hkeyed]
            exact Ne.symm hkey
      · intro hfresh
        exact absurd (mem_around.mpr (Or.inr ⟨other, hother, hkey, hblock⟩)) hfresh

/-- A call on one file: the others stand for what they stood for. -/
theorem step (hopen : FilesOpen lfs committed arrays own) (hfile : file ∈ lfs.mlist)
    {array' : ByteFile} {file' : Handle} {own' : List Block}
    (hcalled : OpenFile lfs file.key committed (around lfs committed own file.key)
      (blockInline :: (committed ++ own file.key)) array' file' own' lfs') :
    FilesOpen lfs' committed (Function.update arrays file.key array')
      (Function.update own file.key own') := by
  have hserving := hcalled.serving
  have hpresent : ∃ old ∈ lfs.mlist, old.key = file.key := ⟨file, hfile, rfl⟩
  have hmlist : lfs'.mlist = updateHandle lfs.mlist file.key fun _ => file' := by
    rw [hserving.eq]
  constructor
  · exact hserving.limits hopen.limits
  · exact reported_closed hopen.reported hserving.sameFs
      (hserving.agree.mono fun block hblock => mem_around.mpr (Or.inl hblock))
  · rw [hmlist, keys_updateHandle _ hserving.key_eq]
    exact hopen.nodup
  · intro other hother htype
    rw [hmlist] at hother
    apply (mem_updateHandle.mp hother).elim
    · intro hkept
      rw [Function.update_of_ne hkept.2, Function.update_of_ne hkept.2]
      apply (hopen.file other hkept.1 htype).frame hopen.limits.block_ge hserving.sameFs
      · apply hserving.agree.mono
        intro block hblock
        apply (List.mem_append.mp hblock).elim
        · exact fun h => mem_around.mpr (Or.inl h)
        · exact fun h => mem_around.mpr (Or.inr ⟨other, hkept.1, hkept.2, h⟩)
      · intro block hblock hdevice hfree
        exact hopen.around_step hserving hcalled.kept hkept.1 hkept.2 hpresent hblock hdevice
          hfree
    · intro hnew
      rw [hnew.1, hserving.key_eq, Function.update_self, Function.update_self]
      apply hcalled.represents.frame (hserving.limits hopen.limits).block_ge ⟨rfl⟩
        (fun _ _ => rfl)
      intro block hblock hdevice hfree hmem
      apply hfree
      apply (mem_around.mp hmem).elim
      · exact fun h => mem_around.mpr (Or.inl h)
      · intro h
        obtain ⟨third, hthird, hdiffers, hin⟩ := h
        rw [hmlist] at hthird
        apply (mem_updateHandle.mp hthird).elim
        · intro h
          rw [Function.update_of_ne h.2] at hin
          exact mem_around.mpr (Or.inr ⟨third, h.1, h.2, hin⟩)
        · intro h
          exact absurd (h.1 ▸ hserving.key_eq) hdiffers
  · intro other hother htype
    rw [hmlist] at hother
    apply (mem_updateHandle.mp hother).elim
    · intro hkept
      rw [Function.update_of_ne hkept.2]
      exact hopen.dir other hkept.1 htype
    · intro hnew
      exact absurd (hnew.1 ▸ hcalled.represents.type_eq) htype
  · apply hcalled.inv.mono
    exact fun block hblock => (mem_flatMap_update hserving hpresent).mp hblock

end FilesOpen

/-! ## Any order of calls -/

/-- The calls that the callers may make. -/
def Callable (lfs : Lfs) (call : Call) : Prop :=
  call.request.Sound ∧ ∃ file ∈ lfs.mlist, file.key = call.key ∧ file.type = .reg

theorem Callable.later {call : Call} {others : List Block} {file' : Handle}
    (hcallable : Callable lfs call) (hserving : Serving lfs key others file' lfs')
    (htype : file'.type = .reg) : Callable lfs' call := by
  obtain ⟨hsound, file, hfile, hkey, hreg⟩ := hcallable
  have hmlist : lfs'.mlist = updateHandle lfs.mlist key fun _ => file' := by rw [hserving.eq]
  refine ⟨hsound, ?_⟩
  rw [hmlist]
  by_cases hsame : file.key = key
  · exact ⟨file', mem_updateHandle.mpr (Or.inr ⟨rfl, file, hfile, hsame⟩),
      hserving.key_eq.trans (hsame.symm.trans hkey), htype⟩
  · exact ⟨file, mem_updateHandle.mpr (Or.inl ⟨hfile, hsame⟩), hkey, hreg⟩

/-- An empty file that is open for reading and writing. -/
def emptyFile (key : ℕ) : Handle where
  key := key
  type := .reg
  m := { pair := (2, 3) }
  ctz := ⟨blockInline, 0⟩
  flags := { read := true, write := true, inline := true }

/-- Two files are open, and up to sixteen bytes stay in the cache. -/
def twoFiles : Lfs :=
  { movingFilesystem {} with
    mlist := [emptyFile 1, emptyFile 2]
    inlineMax := 16
    fileMax := 1000
    lookahead := { ckpoint := 128 } }

/-- The first file outgrows the cache between two calls on the second one. -/
def twoFilesCalls : List Call :=
  [⟨1, .write (List.replicate 10 7), ⟨0, 0⟩, ⟨0, 0⟩⟩, ⟨2, .write [1, 2, 3], ⟨0, 0⟩, ⟨0, 0⟩⟩,
    ⟨1, .write (List.replicate 10 8), ⟨0, 0⟩, ⟨0, 0⟩⟩, ⟨2, .rewind, ⟨0, 0⟩, ⟨0, 0⟩⟩,
    ⟨1, .seek (-11) lfsSeekCur, ⟨0, 0⟩, ⟨0, 0⟩⟩, ⟨1, .read 2, ⟨0, 0⟩, ⟨0, 0⟩⟩,
    ⟨2, .truncate 5, ⟨0, 0⟩, ⟨0, 0⟩⟩, ⟨2, .read 9, ⟨0, 0⟩, ⟨0, 0⟩⟩]

theorem filesOpen_twoFiles : FilesOpen twoFiles [0, 1, 8, 9, 2, 3, 8] (fun _ => ⟨[], 0, false⟩)
    fun _ => [] where
  limits := by constructor <;> decide +kernel
  reported := by decide +kernel
  nodup := by decide
  file := by
    have hempty : ∀ key others, Represents twoFiles [0, 1, 8, 9, 2, 3, 8] others (emptyFile key)
        ⟨[], 0, false⟩ [] := fun key others =>
      { type_eq := rfl
        append_eq := rfl
        pos_eq := rfl
        pos_le := Nat.zero_le _
        length_le := Nat.zero_le _
        appending := fun h => absurd h Bool.false_ne_true
        mode := .inline
          { inline := rfl
            length_eq := rfl
            length_le := Nat.zero_le _
            byte := fun p hp => absurd hp (Nat.not_lt_zero p)
            reading := fun h => absurd h Bool.false_ne_true
            writing := fun h => absurd h Bool.false_ne_true
            started := fun h => absurd h Bool.false_ne_true
            apart := fun h => absurd h Bool.false_ne_true
            head_eq := rfl } }
    intro file hfile _
    apply (List.mem_cons.mp hfile).elim
    · rintro rfl
      exact hempty 1 _
    · intro hrest
      rw [List.mem_singleton.mp hrest]
      exact hempty 2 _
  dir _ _ _ := rfl
  inv :=
    { valid := by constructor <;> decide
      room := by
        change 128 + min (Lookahead.lookaheadBits 16) 128 ≤ 2 ^ 32
        decide
      clear := fun i _ hsize => absurd hsize (Nat.not_lt_zero i) }

end Littlefs
