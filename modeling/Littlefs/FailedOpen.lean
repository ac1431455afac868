import Littlefs.Reading
import Littlefs.Session

/-!
# Opening a file that is not opened

Every error exit of `lfs_file_opencfg_` closes the handle it has set up, and
closing commits a handle that is `DIRTY`.  An exit taken before the flag is set
leaves the filesystem as it was.
-/

namespace Littlefs

open Program

/-! ## What a path names -/

/-- A regular file as it is stored: its struct, its contents and its custom
attributes by type. -/
structure StoredFile where
  struct : Option Attr
  contents : Option Bytes
  attrs : ℕ → Option Attr

def valueOf {α : Type} (program : FsM α) (lfs : Lfs) : Option α :=
  match program lfs with
  | .ok value _ => some value
  | .error _ _ => none

/-- The bytes behind a struct. -/
def storedContents (lfs : Lfs) (struct : Attr) : Option Bytes :=
  if struct.1.type = tyInlinestruct then
    some (struct.2.toBytes.take struct.1.size)
  else
    let ctz := struct.2.toPair
    (valueOf (lfsFileFlushedread
      { key := 0, ctz := ⟨ctz.1, ctz.2⟩, flags := { read := true } } ctz.2) lfs).map Prod.snd

/-- The entry a path leads to, if that is a regular file. -/
def regularFile (lfs : Lfs) (path : Bytes) : Option (Mdir × ℕ) :=
  (valueOf (lfsDirFind path) lfs).bind fun found =>
    found.tag.bind fun tag => if tag.type3 = tyReg then some (found.dir, found.id) else none

/-- The file that `path` names on a device that answers every access. -/
def storedFile (lfs : Lfs) (path : Bytes) : Option StoredFile :=
  (regularFile lfs.quiet path).map fun (dir, id) =>
    let get (gmask gtype : ℕ) :=
      getslice lfs.gdisk dir (mdirLog lfs.disk dir) ⟨gmask, true⟩ ⟨gtype, id, 0⟩
    let struct := get 0x700 tyStruct
    { struct := struct
      contents := struct.bind (storedContents lfs.quiet)
      attrs := fun type => get 0x7ff (tyUserattr + type) }

/-! ## The handle being opened -/

/-- The filesystem `base` with `file` put on the list of open handles under
`key`, after some accesses. -/
structure Opened (base : Lfs) (key : ℕ) (file : Handle) (lfs : Lfs) : Prop where
  key_eq : file.key = key
  eq : lfs = { base with script := lfs.script, mlist := file :: base.mlist }
  suffix : lfs.script <:+ base.script

/-- No handle has the address `key` yet. -/
def FreshKey (lfs : Lfs) (key : ℕ) : Prop := ∀ handle ∈ lfs.mlist, handle.key ≠ key

namespace Opened

variable {base lfs lfs' : Lfs} {key : ℕ} {file : Handle} {fail : Fault → Lfs → Prop}

theorem reads (hopened : Opened base key file lfs) (hreads : Reads lfs lfs') :
    Opened base key file lfs' where
  key_eq := hopened.key_eq
  eq := by rw [hreads.eq, hopened.eq]
  suffix := hreads.suffix.trans hopened.suffix

theorem lookupAttr (hopened : Opened base key file lfs) (dir : Mdir) (gmask : Mask)
    (gtag : Tag) : lookupAttr lfs dir gmask gtag = Littlefs.lookupAttr base dir gmask gtag := by
  rw [hopened.eq]
  rfl

theorem answered (hopened : Opened base key file lfs) (hanswered : Answered base) :
    Answered lfs :=
  fun event hevent => hanswered event (hopened.suffix.subset hevent)

theorem outcome_getHandle (hopened : Opened base key file lfs) {post : Handle → Lfs → Prop} :
    Outcome (getHandle key) post fail lfs ↔ post file lfs := by
  have hfind : findHandle lfs.mlist key = some file := by
    rw [hopened.eq, ← hopened.key_eq]
    simp [findHandle]
  rw [getHandle, outcome_bind, outcome_get, hfind]
  exact outcome_pure file

theorem modify (hopened : Opened base key file lfs) (hfresh : FreshKey base key)
    {update : Handle → Handle} (hkey : (update file).key = file.key) :
    Opened base key (update file) { lfs with mlist := updateHandle lfs.mlist key update } where
  key_eq := hkey.trans hopened.key_eq
  eq := by
    have hrest : updateHandle base.mlist key update = base.mlist := by
      refine (List.map_congr_left fun handle hmem => ?_).trans (List.map_id _)
      simp [hfresh handle hmem]
    rw [hopened.eq]
    simp only [updateHandle, List.map_cons, hopened.key_eq, beq_self_eq_true, if_true] at hrest ⊢
    rw [hrest]
  suffix := hopened.suffix

theorem outcome_modifyHandle (hopened : Opened base key file lfs) (hfresh : FreshKey base key)
    {update : Handle → Handle} (hkey : (update file).key = file.key) {post : Unit → Lfs → Prop}
    (hpost : ∀ lfs', Opened base key (update file) lfs' → post () lfs') :
    Outcome (modifyHandle key update) post fail lfs :=
  hpost _ (hopened.modify hfresh hkey)

theorem outcome_lfsMlistRemove (hopened : Opened base key file lfs)
    {post : Unit → Lfs → Prop} (hpost : ∀ lfs', Reads base lfs' → post () lfs') :
    Outcome (lfsMlistRemove key) post fail lfs := by
  refine hpost _ ⟨?_, hopened.suffix⟩
  rw [hopened.eq]
  simp [hopened.key_eq]

end Opened

/-! ## Exits before the handle is `DIRTY` -/

/-- A handle that closing does not act on. -/
structure Clean (file : Handle) : Prop where
  dirty : file.flags.dirty = false
  writing : file.flags.writing = false
  erred : file.flags.erred = false

/-- An error that left `base` as it was. -/
def FailsUnchanged (base : Lfs) (failure : Fault) (lfs' : Lfs) : Prop :=
  ∀ e, failure = .error e → Reads base lfs'

section Exits

variable {base lfs : Lfs} {key : ℕ} {file : Handle}

theorem lfsFileSync_clean (fail : Fault → Lfs → Prop) (hopened : Opened base key file lfs)
    (hfresh : FreshKey base key)
    (hclean : Clean file) :
    Outcome (lfsFileSync key) (fun _ lfs' => ∃ file', Opened base key file' lfs') fail lfs := by
  rw [lfsFileSync, outcome_bind, hopened.outcome_getHandle, if_neg (by simp [hclean.erred]),
    outcome_bind, orErr, tryError, outcome_bind, outcome_attempt, lfsFileFlush, outcome_bind]
  refine hopened.outcome_modifyHandle hfresh rfl fun lfs' hopened' => ?_
  rw [outcome_bind, hopened'.outcome_getHandle, if_neg (by simp [hclean.writing])]
  simp only [outcome_pure, outcome_bind]
  rw [hopened'.outcome_getHandle, if_neg (by simp [hclean.dirty])]
  exact ⟨_, hopened'⟩

/-- Closing a clean handle only takes it off the list. -/
theorem closeAndFail_clean {α : Type} (hopened : Opened base key file lfs)
    (hfresh : FreshKey base key) (hclean : Clean file) (e : Error) {post : α → Lfs → Prop} :
    Outcome (closeAndFail key e : FsM α) post (FailsUnchanged base) lfs := by
  rw [closeAndFail, outcome_bind, tryError, outcome_attempt, lfsFileClose, outcome_bind,
    hopened.outcome_getHandle, if_neg (by simp [hclean.erred]), outcome_bind, tryError,
    outcome_attempt]
  refine (lfsFileSync_clean (fun _ _ => False) hopened hfresh hclean).imp ?_ fun _ _ h => h.elim
  rintro - lfs' ⟨file', hopened'⟩
  rw [outcome_bind]
  exact hopened'.outcome_lfsMlistRemove fun lfs'' hreads _ _ => hreads

/-- A lookup whose error closes a clean handle. -/
theorem orClose_clean (hopened : Opened base key file lfs) (hfresh : FreshKey base key)
    (hclean : Clean file) (dir : Mdir) (gmask : Mask) (gtag : Tag) :
    Outcome (orClose key (lfsDirGet dir gmask gtag))
      (fun attr lfs' => lookupAttr base dir gmask gtag = some attr ∧ Opened base key file lfs')
      (FailsUnchanged base) lfs := by
  rw [orClose, outcome_bind, tryError, outcome_attempt]
  refine (outcome_lfsDirGet dir gmask gtag lfs).imp ?_ ?_
  · rintro attr lfs' ⟨hfound, hreads⟩
    exact ⟨hopened.lookupAttr dir gmask gtag ▸ hfound, hopened.reads hreads⟩
  · rintro failure lfs' ⟨hreads, hfailure⟩
    cases failure with
    | error e => exact closeAndFail_clean (hopened.reads hreads) hfresh hclean e
    | panic reason => exact fun e h => by cases h
    | outOfFuel => exact fun e h => by cases h
    | badHandle => exact fun e h => by cases h

/-- The size of the tag looked for plays no part in a lookup. -/
theorem getsliceGo_size (gmask : Mask) (type id size size' : ℕ) (newest : List Attr) (gdiff : ℤ) :
    getsliceGo gmask ⟨type, id, size⟩ newest gdiff =
        getsliceGo gmask ⟨type, id, size'⟩ newest gdiff := by
  induction newest generalizing gdiff with
  | nil => rfl
  | cons attr older ih =>
      obtain ⟨tag, data⟩ := attr
      simp only [getsliceGo, ih]

theorem lookupAttr_size (dir : Mdir) (gmask : Mask) (type id size size' : ℕ) :
    lookupAttr lfs dir gmask ⟨type, id, size⟩ = lookupAttr lfs dir gmask ⟨type, id, size'⟩ := by
  unfold lookupAttr getslice
  simp only [getsliceGo_size gmask type id size size']

/-! ## The steps of an open -/

/-- What the steps of an open keep of its handle. -/
structure Opening (base : Lfs) (key : ℕ) (found : Found) (file : Handle) (lfs : Lfs) : Prop where
  opened : Opened base key file lfs
  m : file.m = found.dir
  id : file.id = found.id
  writing : file.flags.writing = false
  erred : file.flags.erred = false

theorem Opening.clean {found : Found} (hopening : Opening base key found file lfs)
    (hdirty : file.flags.dirty = false) : Clean file :=
  ⟨hdirty, hopening.writing, hopening.erred⟩

theorem Opening.reads {found : Found} {lfs' : Lfs} (hopening : Opening base key found file lfs)
    (hreads : Reads lfs lfs') : Opening base key found file lfs' :=
  ⟨hopening.opened.reads hreads, hopening.m, hopening.id, hopening.writing, hopening.erred⟩

/-- The struct of an existing file is looked up before the handle is `DIRTY`. -/
theorem openStruct_existing {found : Found} {tag : Tag} {mode : OpenMode}
    (htag : found.tag = some tag) (htype : tag.type3 = tyReg)
    (hopening : Opening base key found file lfs) (hfresh : FreshKey base key)
    (hdirty : file.flags.dirty = false) :
    Outcome (openStruct key mode found)
      (fun struct lfs' => mode.excl = false ∧
        ∃ file', Opening base key found file' lfs' ∧ file'.flags.dirty = mode.trunc ∧
          if mode.trunc then struct = some ⟨tyInlinestruct, found.id, 0⟩
          else lookupAttr base found.dir ⟨0x700, true⟩ ⟨tyStruct, found.id, 8⟩ ≠ none)
      (FailsUnchanged base) lfs := by
  have hclean := hopening.clean hdirty
  have hopened := hopening.opened
  rw [openStruct, htag]
  dsimp only
  refine outcome_ite (fun _ => closeAndFail_clean hopened hfresh hclean _) fun hexcl => ?_
  rw [if_neg (by simp [htype])]
  have hexcl : mode.excl = false := by simpa using hexcl
  refine outcome_ite (fun htrunc => ?_) fun htrunc => ?_
  · rw [outcome_bind]
    refine hopened.outcome_modifyHandle hfresh rfl fun lfs' hopened' => ?_
    refine ⟨hexcl, _, ⟨hopened', hopening.m, hopening.id, hopening.writing, hopening.erred⟩,
      htrunc.symm, ?_⟩
    rw [if_pos htrunc]
  · have htrunc : mode.trunc = false := by simpa using htrunc
    rw [outcome_bind]
    refine (orClose_clean hopened hfresh hclean _ _ _).imp ?_ fun _ _ h => h
    rintro ⟨struct, data⟩ lfs' ⟨hfound, hopened'⟩
    rw [outcome_bind]
    refine hopened'.outcome_modifyHandle hfresh rfl fun lfs'' hopened'' => ?_
    refine ⟨hexcl, _, ⟨hopened'', hopening.m, hopening.id, hopening.writing, hopening.erred⟩,
      hdirty.trans htrunc.symm, ?_⟩
    rw [htrunc, if_neg (by simp), hfound]
    simp

/-- The device answers the reads of the entry at `dir`, and there is a buffer. -/
structure Answers (base : Lfs) (cfg : FileConfig) (dir : Mdir) : Prop where
  answered : Answered base
  onDevice : OnDevice base dir.pair.1
  buffer : cfg.hasBuffer = true ∨ base.cfg.heap = true

/-- No error exit that is still ahead finds the handle `DIRTY`: it is not, and
stays so up to the first attribute that fails; or nothing fails any more. -/
def Harmless (base : Lfs) (found : Found) (mode : OpenMode) (cfg : FileConfig)
    (attrs : List UserAttr) (file : Handle) : Prop :=
  (file.flags.dirty = false ∧ (mode.write = true → attrs = [] ∨
    ∃ attr ∈ attrs.head?, base.attrMax < attr.buffer.length)) ∨
  (Answers base cfg found.dir ∧
    (mode.write = true → ∀ attr ∈ attrs, attr.buffer.length ≤ base.attrMax))

theorem not_readFails {cfg : FileConfig} {dir : Mdir} (hanswers : Answers base cfg dir)
    (hopened : Opened base key file lfs) {failure : Fault} :
    ¬ReadFails lfs dir.pair.1 failure := by
  rintro (⟨-, hrange⟩ | ⟨-, hio⟩)
  · apply hrange
    rw [hopened.eq]
    exact hanswers.onDevice
  · exact hio (hopened.answered hanswers.answered)

/-- Marking the handle `DIRTY` for one attribute, unless the attribute is too long. -/
theorem openAttrs_mark {found : Found} {mode : OpenMode} {cfg : FileConfig} (attr : UserAttr)
    (attrs : List UserAttr) (next : Unit → FsM Unit) {post : Unit → Lfs → Prop}
    (hopening : Opening base key found file lfs) (hfresh : FreshKey base key)
    (hharmless : Harmless base found mode cfg (attr :: attrs) file)
    (hnext : ∀ file' lfs', Opening base key found file' lfs' →
      Harmless base found mode cfg attrs file' →
        Outcome (next ()) post (FailsUnchanged base) lfs') :
    Outcome (if mode.write = true then do
        let lfs ← get
        if lfs.attrMax < attr.buffer.length then
          closeAndFail key .noSpace
        modifyHandle key fun file => { file with flags := { file.flags with dirty := true } }
        next ()
      else next ()) post (FailsUnchanged base) lfs := by
  have hopened := hopening.opened
  refine outcome_ite (fun hwrite => ?_) fun hwrite => ?_
  · rw [outcome_bind, outcome_get]
    have hmax : lfs.attrMax = base.attrMax := by
      rw [hopened.eq]
    rw [hmax]
    refine outcome_ite (fun hlong => ?_) fun hlong => ?_
    · rcases hharmless with ⟨hdirty, -⟩ | ⟨-, hfit⟩
      · rw [outcome_bind]
        exact closeAndFail_clean hopened hfresh (hopening.clean hdirty) _
      · have hle := hfit hwrite attr List.mem_cons_self
        omega
    · rw [outcome_bind]
      refine hopened.outcome_modifyHandle hfresh rfl fun lfs' hopened' => ?_
      refine hnext _ lfs' ⟨hopened', hopening.m, hopening.id, hopening.writing,
        hopening.erred⟩ (Or.inr ?_)
      rcases hharmless with ⟨-, hfails⟩ | ⟨hanswers, hfit⟩
      · rcases hfails hwrite with hnil | ⟨first, hfirst, hlong'⟩
        · cases hnil
        · cases hfirst
          exact absurd hlong' hlong
      · exact ⟨hanswers, fun _ attr hattr => hfit hwrite attr (List.mem_cons_of_mem _ hattr)⟩
  · refine hnext file lfs hopening ?_
    rcases hharmless with ⟨hdirty, -⟩ | ⟨hanswers, -⟩
    · exact Or.inl ⟨hdirty, fun h => absurd h hwrite⟩
    · exact Or.inr ⟨hanswers, fun h => absurd h hwrite⟩

theorem openAttrs_harmless {found : Found} {mode : OpenMode} {cfg : FileConfig}
    (hfresh : FreshKey base key) (done attrs : List UserAttr)
    (hopening : Opening base key found file lfs)
    (hharmless : Harmless base found mode cfg attrs file) :
    Outcome (openAttrs key mode done attrs)
      (fun _ lfs' => ∃ file', Opening base key found file' lfs' ∧
        Harmless base found mode cfg [] file')
      (FailsUnchanged base) lfs := by
  induction attrs generalizing done file lfs with
  | nil => exact ⟨file, hopening, hharmless⟩
  | cons attr attrs ih =>
      -- whatever the buffer of the attribute holds after the lookup, its length is the same
      have hmark : ∀ (attr' : UserAttr) (lfs' : Lfs), attr'.buffer.length = attr.buffer.length →
          Opening base key found file lfs' →
          Outcome (do
              modifyHandle key fun file => { file with attrs := done ++ attr' :: attrs }
              if mode.write then
                let lfs ← get
                if lfs.attrMax < attr'.buffer.length then
                  closeAndFail key .noSpace
                modifyHandle key fun file =>
                  { file with flags := { file.flags with dirty := true } }
              openAttrs key mode (done ++ [attr']) attrs)
            (fun _ lfs' => ∃ file', Opening base key found file' lfs' ∧
              Harmless base found mode cfg [] file') (FailsUnchanged base) lfs' := by
        intro attr' lfs' hlength hopening'
        rw [outcome_bind]
        refine hopening'.opened.outcome_modifyHandle hfresh rfl fun lfs'' hopened => ?_
        refine openAttrs_mark attr' attrs (fun _ => openAttrs key mode (done ++ [attr']) attrs)
          ⟨hopened, hopening'.m, hopening'.id, hopening'.writing, hopening'.erred⟩ hfresh ?_
          fun file' lfs' hopening' hharmless' => ih (done ++ [attr']) hopening' hharmless'
        rcases hharmless with ⟨hdirty, hfails⟩ | ⟨hanswers, hfit⟩
        · refine Or.inl ⟨hdirty, fun hwrite => Or.inr ?_⟩
          rcases hfails hwrite with hnil | ⟨first, hfirst, hlong⟩
          · cases hnil
          · cases hfirst
            exact ⟨attr', rfl, hlength ▸ hlong⟩
        · refine Or.inr ⟨hanswers, fun hwrite => List.forall_mem_cons.mpr ?_⟩
          have hfit := List.forall_mem_cons.mp (hfit hwrite)
          exact ⟨hlength ▸ hfit.1, hfit.2⟩
      rw [openAttrs, outcome_bind, hopening.opened.outcome_getHandle]
      refine outcome_ite (fun _ => ?_) fun _ => ?_
      · rw [outcome_bind, tryError, outcome_attempt]
        refine (outcome_lfsDirGet _ _ _ lfs).imp ?_ ?_
        · rintro ⟨tag, data⟩ lfs' ⟨-, hreads⟩
          exact hmark { attr with buffer := slice data.toBytes 0 attr.buffer.length } lfs'
            (by simp [slice]) (hopening.reads hreads)
        · rintro failure lfs' ⟨hreads, ⟨rfl, -⟩ | hfails⟩
          · exact hmark attr lfs' rfl (hopening.reads hreads)
          · rcases hharmless with ⟨hdirty, -⟩ | ⟨hanswers, -⟩
            · have hopening' := hopening.reads hreads
              rcases hfails with ⟨rfl, -⟩ | ⟨rfl, -⟩ <;>
              · dsimp only [Fault.toError?]
                rw [outcome_bind]
                exact closeAndFail_clean hopening'.opened hfresh (hopening'.clean hdirty) _
            · exact absurd hfails (not_readFails (hopening.m ▸ hanswers) hopening.opened)
      · exact hmark attr lfs rfl hopening

end Exits

/-! ## The whole call -/

/-- `lfs_fs_forceconsistency` has nothing to repair. -/
structure Settled (lfs : Lfs) : Prop where
  superblock : lfs.gstate.needssuperblock = false
  move : lfs.gdisk.hasmove = false
  orphans : lfs.gstate.hasorphans = false

theorem lfsFsForceconsistency_settled {lfs : Lfs} (hsettled : Settled lfs) :
    lfsFsForceconsistency lfs = .ok () lfs := by
  have hget : (get : FsM Lfs) lfs = .ok lfs lfs := rfl
  have hsuperblock : lfsFsDesuperblock lfs = .ok () lfs := by
    rw [lfsFsDesuperblock, bind_of_ok hget, if_neg (by simp [hsettled.superblock])]
    rfl
  have hmove : lfsFsDemove lfs = .ok () lfs := by
    rw [lfsFsDemove, bind_of_ok hget, if_neg (by simp [hsettled.move])]
    rfl
  have horphans : lfsFsDeorphan true lfs = .ok () lfs := by
    rw [lfsFsDeorphan, bind_of_ok hget, if_neg (by simp [hsettled.orphans])]
    rfl
  rw [lfsFsForceconsistency, bind_of_ok hsuperblock, bind_of_ok hmove, horphans]

/-- The repair that precedes an open for writing keeps the file, whether it succeeds or not. -/
def RepairKeeps (lfs : Lfs) (path : Bytes) (key : ℕ) : Prop :=
  ∀ stored, storedFile lfs path = some stored → FreshKey lfs key →
    Outcome lfsFsForceconsistency
      (fun _ lfs' => storedFile lfs' path = some stored ∧ FreshKey lfs' key)
      (fun _ lfs' => storedFile lfs' path = some stored ∧ FreshKey lfs' key) lfs

theorem Settled.repairKeeps {lfs : Lfs} (hsettled : Settled lfs) (path : Bytes) (key : ℕ) :
    RepairKeeps lfs path key := by
  intro stored hstored hfresh
  unfold Outcome
  rw [lfsFsForceconsistency_settled hsettled]
  exact ⟨hstored, hfresh⟩

/-- No error exit behind the repair finds the handle `DIRTY`: the exit of `EXCL` comes first; a
handle is `DIRTY` from `TRUNC` or from the first attribute of a writable file on; and behind
that point only attributes that are too long, a missing buffer and failed accesses are errors. -/
def HarmlessExits (lfs : Lfs) (path : Bytes) (mode : OpenMode) (cfg : FileConfig) : Prop :=
  mode.excl = true ∨
    (mode.trunc = false ∧ (mode.write = true → cfg.attrs = [] ∨
      ∃ attr ∈ cfg.attrs.head?, lfs.attrMax < attr.buffer.length)) ∨
    ((cfg.hasBuffer = true ∨ lfs.cfg.heap = true) ∧
      (mode.write = true → ∀ attr ∈ cfg.attrs, attr.buffer.length ≤ lfs.attrMax) ∧
      ∀ found lfs', lfsDirFind path lfs = .ok found lfs' → Answered lfs')

/-- The opens whose errors are harmless. -/
structure HarmlessOpen (lfs : Lfs) (key : ℕ) (path : Bytes) (mode : OpenMode)
    (cfg : FileConfig) : Prop where
  reading : mode.write = false → HarmlessExits lfs path mode cfg
  writing : mode.write = true → RepairKeeps lfs path key ∧
    ∀ lfs', lfsFsForceconsistency lfs = .ok () lfs' → HarmlessExits lfs' path mode cfg

/-- Without a repair ahead, the exits decide. -/
theorem HarmlessOpen.of_settled {lfs : Lfs} {path : Bytes} {mode : OpenMode} {cfg : FileConfig}
    (hsettled : Settled lfs) (hexits : HarmlessExits lfs path mode cfg) (key : ℕ) :
    HarmlessOpen lfs key path mode cfg where
  reading _ := hexits
  writing _ := by
    refine ⟨hsettled.repairKeeps path key, fun lfs' hrun => ?_⟩
    rw [lfsFsForceconsistency_settled hsettled] at hrun
    cases hrun
    exact hexits

/-- A failed open leaves an existing file as it was stored, and takes its handle off the list. -/
def FailedOpenKeeps (lfs : Lfs) (file : Handle) (path : Bytes) (mode : OpenMode)
    (cfg : FileConfig) : Prop :=
  ∀ stored, storedFile lfs path = some stored → FreshKey lfs file.key →
    ∀ e lfs', lfsFileOpencfg file path mode cfg lfs = .error (.error e) lfs' →
      storedFile lfs' path = some stored ∧ FreshKey lfs' file.key

theorem storedFile_of_reads {lfs lfs' : Lfs} (hreads : Reads lfs lfs') (path : Bytes) :
    storedFile lfs' path = storedFile lfs path := by
  have hquiet := hreads.eq_quiet
  have hdisk : lfs'.disk = lfs.disk := by rw [hreads.eq]
  have hgdisk : lfs'.gdisk = lfs.gdisk := by rw [hreads.eq]
  unfold storedFile
  rw [hquiet, hdisk, hgdisk]

/-- The lookup behind a stored file. -/
theorem lookup_of_storedFile {lfs : Lfs} {path : Bytes} {stored : StoredFile}
    (hstored : storedFile lfs path = some stored) :
    ∃ found tag, valueOf (lfsDirFind path) lfs.quiet = some found ∧ found.tag = some tag ∧
      tag.type3 = tyReg := by
  obtain ⟨entry, hentry, -⟩ := Option.map_eq_some_iff.mp hstored
  obtain ⟨found, hfound, hentry⟩ := Option.bind_eq_some_iff.mp hentry
  obtain ⟨tag, htag, hentry⟩ := Option.bind_eq_some_iff.mp hentry
  split_ifs at hentry with htype
  exact ⟨found, tag, hfound, htag, htype⟩

/-- The end of an open: the buffer, and the data of an inline file. -/
theorem openInline_harmless {base lfs : Lfs} {key : ℕ} {file : Handle} {found : Found}
    {mode : OpenMode} {cfg : FileConfig} {struct : Option Tag} (hfresh : FreshKey base key)
    (hopening : Opening base key found file lfs)
    (hharmless : Harmless base found mode cfg [] file)
    (hstruct : struct = some ⟨tyInlinestruct, found.id, 0⟩ ∨
      lookupAttr base found.dir ⟨0x700, true⟩ ⟨tyStruct, found.id, 8⟩ ≠ none) :
    Outcome (do
      let lfs ← get
      if ¬cfg.hasBuffer ∧ ¬lfs.cfg.heap then
        closeAndFail key .noMemory
      let size := (struct.map Tag.size).getD 0
      if (struct.map Tag.type3).getD tyInlinestruct = tyInlinestruct then
        modifyHandle key fun file =>
          { file with ctz := ⟨blockInline, size⟩, flags := { file.flags with inline := true } }
        if 0 < size then
          let file ← getHandle key
          let n := min lfs.cfg.cacheSize 0x3fe
          let (_, data) ←
            orClose key (lfsDirGet file.m ⟨0x700, true⟩ ⟨tyStruct, file.id, n⟩)
          modifyHandle key fun file => { file with cache := slice data.toBytes 0 n })
      (fun _ _ => True) (FailsUnchanged base) lfs := by
  have hopened := hopening.opened
  have hcfg : lfs.cfg = base.cfg := by rw [hopened.eq]
  rw [outcome_bind, outcome_get, hcfg]
  refine outcome_ite (fun hnone => ?_) fun _ => ?_
  · have hdirty : file.flags.dirty = false := by
      rcases hharmless with ⟨hdirty, -⟩ | ⟨hanswers, -⟩
      · exact hdirty
      · rcases hanswers.buffer with hbuffer | hheap
        · exact absurd hbuffer hnone.1
        · exact absurd hheap hnone.2
    rw [outcome_bind]
    exact closeAndFail_clean hopened hfresh (hopening.clean hdirty) _
  · dsimp only
    refine outcome_ite (fun _ => ?_) fun _ => trivial
    rw [outcome_bind]
    refine hopened.outcome_modifyHandle hfresh rfl fun lfs' hopened' => ?_
    refine outcome_ite (fun hsize => ?_) fun _ => trivial
    have hfound : lookupAttr base found.dir ⟨0x700, true⟩ ⟨tyStruct, found.id, 8⟩ ≠ none := by
      rcases hstruct with rfl | hfound
      · simp at hsize
      · exact hfound
    rw [outcome_bind, hopened'.outcome_getHandle, outcome_bind]
    dsimp only
    rw [hopening.m, hopening.id]
    rcases hharmless with ⟨hdirty, -⟩ | ⟨hanswers, -⟩
    · exact (orClose_clean hopened' hfresh ⟨hdirty, hopening.writing, hopening.erred⟩ _ _ _).imp
        (fun _ _ _ => trivial) fun _ _ h => h
    · rw [orClose, outcome_bind, tryError, outcome_attempt]
      refine (outcome_lfsDirGet _ _ _ lfs').imp (fun _ _ _ => trivial) ?_
      rintro failure lfs'' ⟨-, ⟨-, hnone⟩ | hfails⟩
      · rw [hopened'.lookupAttr, lookupAttr_size _ _ _ _ _ 8] at hnone
        exact absurd hnone hfound
      · exact absurd hfails (not_readFails hanswers hopened')

/-- The end of an open whose exits are harmless, from the state behind the repair. -/
theorem openStart_harmless {lfs lfs1 : Lfs} {path : Bytes} {mode : OpenMode}
    {cfg : FileConfig} {found : Found} {tag : Tag} (hrun : lfsDirFind path lfs = .ok found lfs1)
    (htag : found.tag = some tag) (htype : tag.type3 = tyReg)
    (hharmless : HarmlessExits lfs path mode cfg) {file2 : Handle} (hreads : Reads lfs lfs1)
    (hexcl : mode.excl = false) (hdirty : file2.flags.dirty = mode.trunc) :
    Harmless lfs1 found mode cfg cfg.attrs file2 := by
  rcases hharmless with h | ⟨htrunc, hfails⟩ | ⟨hbuffer, hfit, hanswered⟩
  · rw [hexcl] at h
    cases h
  · refine Or.inl ⟨hdirty.trans htrunc, ?_⟩
    rw [hreads.eq]
    exact hfails
  · have hdevice := lfsDirFind_onDevice hrun htag (by rw [htype]; decide)
    refine Or.inr ⟨⟨hanswered found lfs1 hrun, (OnDevice.of_reads hreads).mpr hdevice, ?_⟩, ?_⟩
    · rw [hreads.eq]
      exact hbuffer
    · rw [hreads.eq]
      exact hfit

/-- What a failed open has to leave behind. -/
def Kept (path : Bytes) (key : ℕ) (stored : StoredFile) (lfs : Lfs) : Prop :=
  storedFile lfs path = some stored ∧ FreshKey lfs key

theorem Kept.of_reads {path : Bytes} {key : ℕ} {stored : StoredFile} {lfs lfs' : Lfs}
    (hkept : Kept path key stored lfs) (hreads : Reads lfs lfs') : Kept path key stored lfs' := by
  refine ⟨(storedFile_of_reads hreads path).trans hkept.1, ?_⟩
  rw [hreads.eq]
  exact hkept.2

theorem lfsFileOpencfg_harmless {lfs : Lfs} {file : Handle} {path : Bytes} {mode : OpenMode}
    {cfg : FileConfig} {stored : StoredFile} (hkept : Kept path file.key stored lfs)
    (hharmless : HarmlessOpen lfs file.key path mode cfg) :
    Outcome (lfsFileOpencfg file path mode cfg) (fun _ _ => True)
      (fun failure lfs' => ∀ e, failure = .error e → Kept path file.key stored lfs') lfs := by
  rw [lfsFileOpencfg]
  have hrepair : mode.write = true → Outcome lfsFsForceconsistency
      (fun _ lfs' => Kept path file.key stored lfs' ∧ HarmlessExits lfs' path mode cfg)
      (fun failure lfs' => ∀ e, failure = .error e → Kept path file.key stored lfs') lfs := by
    intro hwrite
    obtain ⟨hrepair, hexits⟩ := hharmless.writing hwrite
    have hrepair := hrepair stored hkept.1 hkept.2
    exact .intro (fun _ lfs' hrun => ⟨hrepair.of_ok hrun, hexits lfs' hrun⟩)
      fun _ lfs' hrun _ _ => hrepair.of_error hrun
  refine outcome_when hrepair (fun hwrite => ⟨hkept, hharmless.reading (by simpa using hwrite)⟩) ?_
  rintro lfs ⟨hkept, hexits⟩
  obtain ⟨found, tag, hfound, htag, htype⟩ := lookup_of_storedFile hkept.1
  dsimp only
  rw [outcome_bind]
  refine Outcome.intro (fun found' lfs1 hrun => ?_) fun failure lfs1 hrun e he =>
    hkept.of_reads ((steady_lfsDirFind path lfs).of_error hrun).1
  obtain ⟨hreads, hquiet⟩ := (steady_lfsDirFind path).of_ok hrun
  have hsame : found' = found := by
    rw [valueOf, hquiet] at hfound
    exact Option.some.inj hfound
  subst hsame
  have hkept1 := hkept.of_reads hreads
  rw [if_neg (by simp [htag]), outcome_bind, lfsMlistAppend, outcome_modify, outcome_bind]
  have hopening : Opening lfs1 file.key found'
      { file with flags := mode.flags, pos := 0, off := 0, cache := [], m := found'.dir,
                  id := found'.id, type := .reg, attrs := cfg.attrs }
      { lfs1 with mlist := { file with
          flags := mode.flags, pos := 0, off := 0, cache := [], m := found'.dir,
          id := found'.id, type := .reg, attrs := cfg.attrs } :: lfs1.mlist } :=
    ⟨⟨rfl, rfl, List.suffix_rfl⟩, rfl, rfl, rfl, rfl⟩
  refine (openStruct_existing htag htype hopening hkept1.2 rfl).imp ?_
    fun _ _ hfails e he => hkept1.of_reads (hfails e he)
  rintro struct lfs2 ⟨hexcl, file2, hopening2, hdirty2, hstruct⟩
  have hharmless2 := openStart_harmless hrun htag htype hexits hreads hexcl hdirty2
  rw [outcome_bind]
  refine (openAttrs_harmless hkept1.2 [] cfg.attrs hopening2 hharmless2).imp ?_
    fun _ _ hfails e he => hkept1.of_reads (hfails e he)
  rintro - lfs3 ⟨file3, hopening3, hharmless3⟩
  have hstruct' : struct = some ⟨tyInlinestruct, found'.id, 0⟩ ∨
      lookupAttr lfs1 found'.dir ⟨0x700, true⟩ ⟨tyStruct, found'.id, 8⟩ ≠ none := by
    split at hstruct
    · exact Or.inl hstruct
    · exact Or.inr hstruct
  exact (openInline_harmless hkept1.2 hopening3 hharmless3 hstruct').imp
    (fun _ _ _ => trivial) fun _ _ hfails e he => hkept1.of_reads (hfails e he)

/-- One file, `a`, with four bytes in its directory. -/
def oneFile : Lfs :=
  mountedAfter { smallConfig with attrMax := 8, inlineMax := 8 } (writeFile [97] [1, 2, 3, 4] [])

/-- An attribute one byte longer than `oneFile` allows. -/
def longAttr : FileConfig := { attrs := [⟨5, List.replicate 9 0⟩] }

/-- The type of the struct a path leads to. -/
def structType (lfs : Lfs) (path : Bytes) : Option ℕ :=
  (storedFile lfs path).bind fun stored => stored.struct.map fun struct => struct.1.type

end Littlefs
