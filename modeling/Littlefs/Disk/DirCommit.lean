import Littlefs.Disk.Getting

/-!
# Committing a directory

The two ways in which `lfs_dir_commit` writes a metadata pair: behind the commits of
its block, and into the other block from scratch.  The attributes are the ones
that `lfs_dir_traverse` hands to `lfs_dir_commitattr`; the block that a compaction
erases may hold any bytes afterwards.  The conversions of the byte order stand
where the source has them.
-/

namespace Littlefs.Disk

open Words

/-- The words of the buffer of a tail attribute, as the host reads them; on disk data
that is the `lfs_diskoff` itself. -/
def Buffer.words (order : ByteOrder) : Buffer → Option WordPair
  | memory data =>
      if data.length = 8 then some (order.ofBytes data, order.ofBytes (data.drop 4)) else none
  | disk block off => some (block, BitVec.ofNat 32 off)

/-- The loop of `lfs_dir_relocatingcommit` over the attributes, on the directory in
memory. -/
def LfsMdir.attr (order : ByteOrder) (dir : LfsMdir) (attr : LfsMattr) : Except Fault LfsMdir :=
  if (tagOf attr.tag).type3 = tyCreate then
    .ok { dir with count := (dir.count + 1) % 2 ^ 16 }
  else if (tagOf attr.tag).type3 = tyDelete then
    .ok { dir with count := (dir.count + (2 ^ 16 - 1)) % 2 ^ 16 }
  else if (tagOf attr.tag).type1 = tyTail then
    match attr.buffer.words order with
    | none => .error (.panic .unwrapNone)
    | some buf =>
        .ok { dir with
          tail := (order.le buf.1, order.le buf.2)
          split := (tagOf attr.tag).chunk &&& 1 != 0 }
  else
    .ok dir

/-- The change of the global state that a commit carries, without the part of the
directory. -/
def Store.delta (store : Store) (relocated : Bool) : LfsGstate :=
  let delta := if relocated then store.gdelta else (store.gdisk.xor store.gstate).xor store.gdelta
  { delta with tag := delta.tag &&& ~~~mktag 0 0 0x3ff }

/-- The bytes of a pair after `lfs_pair_tole32`. -/
def WordPair.bytes (order : ByteOrder) (pair : WordPair) : List Octet :=
  order.bytes (order.le pair.1) ++ order.bytes (order.le pair.2)

def tailTag (split : Bool) : Word := mktag (tyTail + if split then 1 else 0) 0x3ff 8

theorem isvalid_tailTag (split : Bool) : isvalid (tailTag split) = true := by
  cases split <;> decide

def tailAttr (order : ByteOrder) (dir : LfsMdir) : LfsMattr where
  tag := tailTag dir.split
  buffer := .memory (WordPair.bytes order dir.tail)
  source := isvalid_tailTag dir.split

def movestateTag : Word := mktag tyMovestate 0x3ff 12

theorem isvalid_movestateTag : isvalid movestateTag = true := by decide

def movestateAttr (order : ByteOrder) (delta : LfsGstate) : LfsMattr where
  tag := movestateTag
  buffer := .memory (delta.bytes order)
  source := isvalid_movestateTag

/-- The checksum, and what is kept of the commit in memory. -/
def closeDir (dir : LfsMdir) (relocated : Bool) (state : Store × LfsCommit) :
    Except Fault (Store × LfsMdir) := do
  let (store, commit) ← lfsDirCommitcrc state
  return ({ store with
      gdisk := if relocated then store.gdisk else store.gstate
      gdelta := {} },
    { dir with off := commit.off, etag := commit.ptag })

/-- The global state in an appended commit, when it changes. -/
def appendMovestate (dir : LfsMdir) (state : Store × LfsCommit) :
    Except Fault (Store × LfsCommit) :=
  let delta := state.1.delta false
  if delta.iszero then
    .ok state
  else do
    let delta ← lfsDirGetgstate state.1 dir delta
    lfsDirCommitattr state (movestateAttr state.1.order delta)

/-- The append of `lfs_dir_relocatingcommit`. -/
def lfsDirAppend (store : Store) (dir : LfsMdir) (attrs : List LfsMattr) :
    Except Fault (Store × LfsMdir) := do
  let dir ← attrs.foldlM (LfsMdir.attr store.order) dir
  let state ← attrs.foldlM lfsDirCommitattr (store, dir.appended store.cfg.commitEnd)
  let state ← appendMovestate dir state
  closeDir dir false state

/-- `lfs_bd_erase`, which leaves the bytes of `blank`. -/
def Store.erase (store : Store) (block : Word) (blank : ℕ → Octet) : Store :=
  { store with bytes := Function.update store.bytes block blank }

/-- The tail in a compaction. -/
def compactTail (dir : LfsMdir) (state : Store × LfsCommit) : Except Fault (Store × LfsCommit) :=
  if lfsPairIsnull dir.tail.toPair then .ok state
  else lfsDirCommitattr state (tailAttr state.1.order dir)

/-- The global state in a compaction, unless it is zero. -/
def compactMovestate (dir : LfsMdir) (relocated : Bool) (state : Store × LfsCommit) :
    Except Fault (Store × LfsCommit) := do
  let delta ← lfsDirGetgstate state.1 dir (state.1.delta relocated)
  if delta.iszero then .ok state
  else lfsDirCommitattr state (movestateAttr state.1.order delta)

/-- `lfs_dir_compact` once the block of the second place has been allocated. -/
def lfsDirCompact (store : Store) (dir : LfsMdir) (blank : ℕ → Octet) (relocated : Bool)
    (attrs : List LfsMattr) (count : ℕ) : Except Fault (Store × LfsMdir) := do
  let dir := { dir with rev := dir.rev + 1 }
  let state ← attrs.foldlM lfsDirCommitattr
    (freshCommit (store.erase dir.pair.2 blank) dir.pair.2 dir.rev store.cfg.commitEnd)
  let state ← compactTail dir state
  let state ← compactMovestate dir relocated state
  closeDir { dir with pair := dir.pair.swap, count := count } relocated state

/-- How a directory is written, and with what. -/
inductive Writer
  | append (attrs : List LfsMattr)
  | compact (blank : ℕ → Octet) (relocated : Bool) (attrs : List LfsMattr) (count : ℕ)

def Writer.run (store : Store) (dir : LfsMdir) : Writer → Except Fault (Store × LfsMdir)
  | append attrs => lfsDirAppend store dir attrs
  | compact blank relocated attrs count => lfsDirCompact store dir blank relocated attrs count

/-! ## Another byte order -/

/-- The same device under a host of the byte order `order`. -/
def Store.on (store : Store) (order : ByteOrder) : Store := { store with order := order }

variable {store store' : Store} {commit : LfsCommit} {dir : LfsMdir} {attr : LfsMattr}
  {attrs : List LfsMattr} {α : Type}

/-- The device is seen under another byte order, the rest stays. -/
def reorder (order : ByteOrder) (state : Store × α) : Store × α := (state.1.on order, state.2)

section

variable (order : ByteOrder) (state : Store × LfsCommit)

theorem copyFromDisk_on (block : Word) (size off : ℕ) :
    copyFromDisk block size off (reorder order state) =
      (copyFromDisk block size off state).map (reorder order) := by
  induction size generalizing off state with
  | zero => rfl
  | succ size ih =>
      obtain ⟨store, commit⟩ := state
      have hread : (store.on order).read block off 1 = store.read block off 1 := rfl
      simp only [reorder, copyFromDisk, hread]
      cases store.read block off 1 with
      | none => rfl
      | some dat => exact ih (lfsDirCommitprog store commit dat) (off + 1)

theorem lfsDirCommitattr_on (attr : LfsMattr) :
    lfsDirCommitattr (reorder order state) attr =
      (lfsDirCommitattr state attr).map (reorder order) := by
  obtain ⟨store, commit⟩ := state
  have hprog : ∀ buffer : List Octet, lfsDirCommitprog (store.on order) commit buffer =
      reorder order (lfsDirCommitprog store commit buffer) := fun buffer => rfl
  simp only [reorder, lfsDirCommitattr, ByteOrder.bytes_be, hprog]
  split
  · rfl
  · generalize lfsDirCommitprog store commit
      (beBytes ((attr.tag &&& 0x7fffffff) ^^^ commit.ptag)) = written
    cases attr.buffer with
    | memory data =>
        simp only
        split <;> rfl
    | disk block off =>
        have hcopy := copyFromDisk_on order written block ((tagOf attr.tag).dsize - 4) off
        simp only [reorder] at hcopy ⊢
        rw [hcopy]
        cases copyFromDisk block ((tagOf attr.tag).dsize - 4) off written <;> rfl

theorem commitAttrs_on (attrs : List LfsMattr) :
    attrs.foldlM lfsDirCommitattr (reorder order state) =
      (attrs.foldlM lfsDirCommitattr state).map (reorder order) := by
  induction attrs generalizing state with
  | nil => rfl
  | cons attr rest ih =>
      rw [List.foldlM_cons, List.foldlM_cons, lfsDirCommitattr_on]
      cases lfsDirCommitattr state attr with
      | error e => rfl
      | ok middle => exact ih middle

theorem crcGo_on (store : Store) (block : Word) (fuel off size : ℕ) (crc : Word) :
    (store.on order).crcGo block fuel off size crc = store.crcGo block fuel off size crc := by
  induction fuel generalizing off size crc with
  | zero => rfl
  | succ fuel ih =>
      have hread : (store.on order).read block off (min size 8) =
          store.read block off (min size 8) :=
        rfl
      simp only [Store.crcGo, hread, ih]

theorem closeCommit_on (noff : ℕ) (eperturb : Octet) :
    closeCommit (reorder order state) noff eperturb =
      reorder order (closeCommit state noff eperturb) := by
  simp only [closeCommit, closingCrc, reorder, ByteOrder.bytes_be, ByteOrder.bytes_le]
  rfl

theorem commitcrcLoop_on (stop fuel : ℕ) (first : Option (ℕ × Word)) :
    commitcrcLoop stop fuel (reorder order state) first =
      (commitcrcLoop stop fuel state first).map fun looped =>
        (reorder order looped.1, looped.2) := by
  induction fuel generalizing state first with
  | zero => rfl
  | succ fuel ih =>
      obtain ⟨store, commit⟩ := state
      have hfcrc : fcrcAttr order
          ((store.on order).forwardCrc commit.block (nextOff stop commit.off)) =
          fcrcAttr store.order (store.forwardCrc commit.block (nextOff stop commit.off)) := by
        have hforward : (store.on order).forwardCrc commit.block (nextOff stop commit.off) =
            store.forwardCrc commit.block (nextOff stop commit.off) := by
          simp only [Store.forwardCrc, Store.crc, crcGo_on]
          rfl
        simp only [fcrcAttr, LfsFcrc.bytes, ByteOrder.bytes_le, hforward]
      have hperturb : (store.on order).eperturb commit.block (nextOff stop commit.off) =
          store.eperturb commit.block (nextOff stop commit.off) := rfl
      have hclosing : ∀ (state : Store × LfsCommit) (noff : ℕ) (eperturb : Octet),
          closingCrc (reorder order state) noff eperturb = closingCrc state noff eperturb := by
        intro state noff eperturb
        simp only [closingCrc, reorder, ByteOrder.bytes_be]
      have hattr := lfsDirCommitattr_on order (store, commit)
        (fcrcAttr store.order (store.forwardCrc commit.block (nextOff stop commit.off)))
      have hcfg : (store.on order).cfg = store.cfg := rfl
      have horder : (store.on order).order = order := rfl
      simp only [reorder] at hattr
      simp only [commitcrcLoop, reorder, hcfg, horder, hfcrc, hperturb, hattr]
      split
      · split
        · cases lfsDirCommitattr (store, commit) (fcrcAttr store.order
            (store.forwardCrc commit.block (nextOff stop commit.off))) with
          | error e => rfl
          | ok middle =>
              have hclose := closeCommit_on order middle (nextOff stop commit.off)
                (store.eperturb commit.block (nextOff stop commit.off))
              have hcrc := hclosing middle (nextOff stop commit.off)
                (store.eperturb commit.block (nextOff stop commit.off))
              have hmiddle : Except.map (reorder order) (.ok middle : Except Fault _) =
                  .ok (reorder order middle) := rfl
              have hoff : (reorder order middle).2.off = middle.2.off := rfl
              rw [hmiddle]
              simp only [hclose, hcrc, hoff]
              exact ih _ _
        · have hclose := closeCommit_on order (store, commit) (nextOff stop commit.off) 0xff
          have hcrc := hclosing (store, commit) (nextOff stop commit.off) 0xff
          simp only [reorder] at hclose hcrc
          rw [hclose, hcrc]
          exact ih _ _
      · rfl

theorem lfsDirCommitcrc_on :
    lfsDirCommitcrc (reorder order state) = (lfsDirCommitcrc state).map (reorder order) := by
  have hcheck : ∀ (store : Store) (commit : LfsCommit) (off1 : ℕ) (crc1 : Word),
      checkCommit (store.on order) commit off1 crc1 = checkCommit store commit off1 crc1 := by
    intro store commit off1 crc1
    simp only [checkCommit, Store.crc, crcGo_on]
  have hcfg : (reorder order state).1.cfg = state.1.cfg := rfl
  have hcommit : (reorder order state).2 = state.2 := rfl
  simp only [lfsDirCommitcrc, hcfg, hcommit, commitcrcLoop_on]
  cases commitcrcLoop (lfsAlignup (min (state.2.off + 20) state.1.cfg.blockSize)
      state.1.cfg.progSize) (lfsAlignup (min (state.2.off + 20) state.1.cfg.blockSize)
        state.1.cfg.progSize - state.2.off + 1) state none with
  | error e => rfl
  | ok looped =>
      have hsame : checkCommit (looped.1.1.on order) looped.1.2 (looped.2.getD (0, 0)).1
          (looped.2.getD (0, 0)).2 = checkCommit looped.1.1 looped.1.2 (looped.2.getD (0, 0)).1
            (looped.2.getD (0, 0)).2 := hcheck _ _ _ _
      simp only [Except.map, reorder, hsame]
      cases checkCommit looped.1.1 looped.1.2 (looped.2.getD (0, 0)).1
        (looped.2.getD (0, 0)).2 <;> rfl

/-! ## The writers -/

theorem movestateAttr_eq (delta : LfsGstate) :
    movestateAttr order delta = movestateAttr .little delta := by
  simp only [movestateAttr, LfsGstate.bytes, ByteOrder.bytes_le]

theorem tailAttr_eq (dir : LfsMdir) : tailAttr order dir = tailAttr .little dir := by
  simp only [tailAttr, WordPair.bytes, ByteOrder.bytes_le]

/-- Tails come from memory. -/
def LfsMattr.TailInMemory (attr : LfsMattr) : Prop :=
  (tagOf attr.tag).type1 = tyTail → attr.buffer.isMemory = true

theorem LfsMdir.attr_eq (dir : LfsMdir) {attr : LfsMattr} (hmemory : attr.TailInMemory) :
    dir.attr order attr = dir.attr .little attr := by
  unfold LfsMdir.attr
  by_cases htail : (tagOf attr.tag).type1 = tyTail
  · have hbuffer := hmemory htail
    cases hdata : attr.buffer with
    | disk block off =>
        rw [hdata] at hbuffer
        cases hbuffer
    | memory data =>
        by_cases hlength : data.length = 8
        · have hfirst := fun order : ByteOrder =>
            le_ofBytes order (by omega : 4 ≤ data.length)
          have hsecond := fun order : ByteOrder =>
            le_ofBytes order (by rw [List.length_drop]; omega : 4 ≤ (data.drop 4).length)
          simp only [Buffer.words, if_pos hlength, hfirst, hsecond]
        · simp only [Buffer.words, if_neg hlength]
  · simp only [if_neg htail]

theorem foldlM_attr_eq {attrs : List LfsMattr} (dir : LfsMdir)
    (hmemory : ∀ attr ∈ attrs, attr.TailInMemory) :
    attrs.foldlM (LfsMdir.attr order) dir = attrs.foldlM (LfsMdir.attr .little) dir := by
  induction attrs generalizing dir with
  | nil => rfl
  | cons attr rest ih =>
      rw [List.foldlM_cons, List.foldlM_cons,
        LfsMdir.attr_eq order dir (hmemory attr List.mem_cons_self)]
      cases dir.attr .little attr with
      | error e => rfl
      | ok dir => exact ih dir fun attr hmem => hmemory attr (List.mem_cons_of_mem _ hmem)

theorem lfsDirGetgstate_on (store : Store) (dir : LfsMdir) (gstate : LfsGstate) :
    lfsDirGetgstate (store.on order) dir gstate = lfsDirGetgstate store dir gstate :=
  lfsDirGetgstate_congr (fun _ _ => rfl) rfl

/-- Steps that agree up to the byte order do so one after the other. -/
theorem bind_reorder {β : Type} {first first' : Except Fault (Store × α)}
    {next next' : Store × α → Except Fault (Store × β)}
    (hfirst : first' = first.map (reorder order))
    (hnext : ∀ state, next' (reorder order state) = (next state).map (reorder order)) :
    first' >>= next' = (first >>= next).map (reorder order) := by
  rw [hfirst]
  cases first with
  | error e => rfl
  | ok state => exact hnext state

theorem closeDir_on (dir : LfsMdir) (relocated : Bool) :
    closeDir dir relocated (reorder order state) =
      (closeDir dir relocated state).map (reorder order) :=
  bind_reorder order (lfsDirCommitcrc_on order state) fun _ => rfl

theorem appendMovestate_on (dir : LfsMdir) :
    appendMovestate dir (reorder order state) =
      (appendMovestate dir state).map (reorder order) := by
  have hdelta : (reorder order state).1.delta false = state.1.delta false := rfl
  have hgstate : lfsDirGetgstate (reorder order state).1 dir (state.1.delta false) =
      lfsDirGetgstate state.1 dir (state.1.delta false) := lfsDirGetgstate_on order _ _ _
  rw [appendMovestate, appendMovestate, hdelta]
  split
  · rfl
  · rw [hgstate]
    cases lfsDirGetgstate state.1 dir (state.1.delta false) with
    | error e => rfl
    | ok delta =>
        have hattr := lfsDirCommitattr_on order state (movestateAttr .little delta)
        simp only [bind, Except.bind, movestateAttr_eq]
        exact hattr

theorem compactTail_on (dir : LfsMdir) :
    compactTail dir (reorder order state) = (compactTail dir state).map (reorder order) := by
  rw [compactTail, compactTail, tailAttr_eq, tailAttr_eq state.1.order]
  split
  · rfl
  · exact lfsDirCommitattr_on order state _

theorem compactMovestate_on (dir : LfsMdir) (relocated : Bool) :
    compactMovestate dir relocated (reorder order state) =
      (compactMovestate dir relocated state).map (reorder order) := by
  have hdelta : (reorder order state).1.delta relocated = state.1.delta relocated := rfl
  have hgstate : lfsDirGetgstate (reorder order state).1 dir (state.1.delta relocated) =
      lfsDirGetgstate state.1 dir (state.1.delta relocated) := lfsDirGetgstate_on order _ _ _
  rw [compactMovestate, compactMovestate, hdelta, hgstate]
  cases lfsDirGetgstate state.1 dir (state.1.delta relocated) with
  | error e => rfl
  | ok delta =>
      have hattr := lfsDirCommitattr_on order state (movestateAttr .little delta)
      simp only [bind, Except.bind, movestateAttr_eq]
      split
      · rfl
      · exact hattr

/-- The bytes that a commit writes do not depend on the byte order of the host. -/
theorem lfsDirAppend_on {attrs : List LfsMattr} (store : Store) (dir : LfsMdir)
    (hmemory : ∀ attr ∈ attrs, attr.TailInMemory) :
    lfsDirAppend (store.on order) dir attrs =
      (lfsDirAppend store dir attrs).map (reorder order) := by
  have hloop : attrs.foldlM (LfsMdir.attr order) dir =
      attrs.foldlM (LfsMdir.attr store.order) dir := by
    rw [foldlM_attr_eq order dir hmemory, foldlM_attr_eq store.order dir hmemory]
  have horder : (store.on order).order = order := rfl
  rw [lfsDirAppend, lfsDirAppend, horder, hloop]
  cases attrs.foldlM (LfsMdir.attr store.order) dir with
  | error e => rfl
  | ok dir =>
      apply bind_reorder order
        (commitAttrs_on order (store, dir.appended store.cfg.commitEnd) attrs)
      intro state
      apply bind_reorder order (appendMovestate_on order state dir)
      intro state
      exact closeDir_on order state dir false

theorem lfsDirCompact_on (store : Store) (dir : LfsMdir) (blank : ℕ → Octet) (relocated : Bool)
    (attrs : List LfsMattr) (count : ℕ) :
    lfsDirCompact (store.on order) dir blank relocated attrs count =
      (lfsDirCompact store dir blank relocated attrs count).map (reorder order) := by
  have hfresh : freshCommit ((store.on order).erase dir.pair.2 blank) dir.pair.2 (dir.rev + 1)
      (store.on order).cfg.commitEnd = reorder order (freshCommit (store.erase dir.pair.2 blank)
        dir.pair.2 (dir.rev + 1) store.cfg.commitEnd) := by
    simp only [freshCommit, lfsDirCommitprog, reorder, Store.erase, Store.on, Store.prog,
      ByteOrder.bytes_le]
  rw [lfsDirCompact, lfsDirCompact]
  simp only [hfresh]
  apply bind_reorder order (commitAttrs_on order _ attrs)
  intro state
  apply bind_reorder order (compactTail_on order state _)
  intro state
  apply bind_reorder order (compactMovestate_on order state _ relocated)
  intro state
  exact closeDir_on order state _ relocated

end

end Littlefs.Disk
