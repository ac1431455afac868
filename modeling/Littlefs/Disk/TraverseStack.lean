import Littlefs.Disk.Fetchmatch
import Littlefs.Lib.Machines

/-!
# The stack of a traversal

`lfs_dir_traverse` is a recursion written with an explicit stack of two frames.  It
goes over the tags of a block and over a list of attributes.  A tag that the mask
selects is filtered by a second walk over what follows it, and an
`LFS_FROM_MOVE` is replaced by a walk over another directory.
-/

namespace Littlefs.Disk

open Words

/-- What the `buffer` of a tag points to.  The bytes of an `lfs_diskoff` are those of
the local variable `disk`, which a pop restores. -/
inductive TagBuffer
  | disk (block : Word) (off : ℕ)
  | bytes (buffer : List Octet)
  | mdir (dir : LfsMdir)
  | userattrs (attrs : List (Octet × List Octet))
  deriving DecidableEq, Repr

/-- An attribute of the caller's list. -/
structure TraverseAttr where
  tag : Word
  buffer : TagBuffer
  deriving DecidableEq, Repr

/-- `LfsDirTraverseStackCb`: the callback of the caller, or the filter with the frame
that its pointer leads to. -/
inductive StackCb
  | caller
  | filter (slot : ℕ)
  deriving DecidableEq, Repr

/-- The variables that a frame saves. -/
structure Walk where
  dir : LfsMdir
  off : ℕ
  ptag : Word
  attrI : ℕ := 0
  useEmptyAttrs : Bool := false
  tmask : Word
  ttag : Word
  first : ℕ
  last : ℕ
  diff : ℤ
  cb : StackCb := .caller
  disk : Word × ℕ := (0, 0)

/-- The walk of the filter: the same tags, without a pattern. -/
def Walk.filtering (walk : Walk) (slot : ℕ) : Walk :=
  { walk with tmask := 0, ttag := 0, first := 0, last := 0, diff := 0, cb := .filter slot }

/-- The walk over entry `fromid` of another directory.  The difference of the ids is
an `i16`. -/
def Walk.moving (walk : Walk) (dir : LfsMdir) (fromid toid : ℕ) : Walk :=
  { walk with
    dir := dir
    off := 0
    ptag := 0xffffffff
    attrI := 0
    useEmptyAttrs := true
    tmask := mktag 0x600 0x3ff 0
    ttag := mktag tyStruct 0 0
    first := fromid
    last := fromid + 1
    diff := ((toid : ℤ) - fromid + walk.diff).bmod (2 ^ 16) }

/-- The place of the next tag of the block. -/
def Walk.nextOff (walk : Walk) : ℕ := walk.off + (tagOf walk.ptag).dsize

/-- The next tag of the block is read. -/
def Walk.readOn (walk : Walk) (word : Word) : Walk :=
  { walk with
    off := walk.nextOff
    ptag := (word ^^^ walk.ptag) ||| 0x80000000
    disk := (walk.dir.pair.1, walk.nextOff + 4) }

/-- `LfsDirTraverseStack`. -/
structure Frame extends Walk where
  tag : Word
  buffer : TagBuffer

/-- `TraversePhase`. -/
inductive Phase
  | getNextTag
  | processTag (tag : Word) (buffer : TagBuffer) (override : Option (Word × ℕ))
  | popAndProcess

/-- What the traversal calls: the reads of the device, the callback of its caller, and
the casts of the bytes of an attribute. -/
structure Host (σ : Type) where
  readTag : σ → Word → ℕ → Except Fault Word × σ
  callback : σ → Word → TagBuffer → Except Fault ℤ × σ
  asMdir : List Octet → Option LfsMdir
  asUserattrs : List Octet → List (Octet × List Octet)

/-- The variables of `lfs_dir_traverse`; `sp` is the length of the stack. -/
structure Traversal (σ : Type) where
  walk : Walk
  stack : List Frame := []
  phase : Phase := .getNextTag
  res : ℤ := 0
  lfs : σ

/-- How a traversal ends: it returns or panics, its `assert_eq!` about the size of the
user attributes fails, or it indexes its stack outside. -/
inductive Ended
  | returned (result : Except Fault ℤ)
  | asserted
  | outside (index : ℕ)

/-- `LFS_DIR_TRAVERSE_DEPTH - 1`. -/
def stackSize : ℕ := 3 - 1

/-- The size of an `LfsAttr` on a host with pointers of 64 bits. -/
def sizeofLfsAttr : ℕ := 24

/-- `buffer.len()`. -/
def TagBuffer.length : TagBuffer → ℕ
  | .disk _ _ => 8
  | .bytes buffer => buffer.length
  | .mdir _ => 32
  | .userattrs attrs => attrs.length * sizeofLfsAttr

/-- `lfs_dir_traverse_filter`: the result, and the filtered tag. -/
def lfsDirTraverseFilter (filtertag tag : Word) : ℤ × Word :=
  let mask := if tag &&& mktag 0x100 0 0 ≠ 0 then mktag 0x7ff 0x3ff 0 else mktag 0x700 0x3ff 0
  if mask &&& tag = mask &&& filtertag ∨ (tagOf filtertag).isdelete = true ∨
      mktag 0x7ff 0x3ff 0 &&& tag = mktag tyDelete 0 0 ||| (mktag 0 0x3ff 0 &&& filtertag) then
    (1, mktag fromNoop 0 0)
  else if (tagOf tag).type1 = tySplice ∧ (tagOf tag).id ≤ (tagOf filtertag).id then
    (0, filtertag + mkdiff (tagOf tag).splice)
  else
    (0, filtertag)

variable {σ : Type}

/-- `dispatch_tag`, whose result goes to `res`. -/
def Traversal.dispatch (host : Host σ) (traversal : Traversal σ) (tag : Word)
    (buffer : TagBuffer) : Except Fault (Traversal σ) :=
  let tag := tag + mkdiff traversal.walk.diff
  match traversal.walk.cb with
  | .caller =>
      match host.callback traversal.lfs tag buffer with
      | (.error e, _) => .error e
      | (.ok res, lfs) => .ok { traversal with res := res, lfs := lfs }
  | .filter slot =>
      match traversal.stack[slot]? with
      | none => .ok traversal
      | some frame =>
          let (res, filtertag) := lfsDirTraverseFilter frame.tag tag
          .ok { traversal with
            res := res
            stack := traversal.stack.set slot { frame with tag := filtertag } }

/-- The loop over the user attributes; it stops at a result that is not zero. -/
def Traversal.dispatchAttrs (host : Host σ) (tag : Word) :
    List (Octet × List Octet) → Traversal σ → Except Fault (Traversal σ)
  | [], traversal => .ok traversal
  | (type, buffer) :: rest, traversal => do
      let id := BitVec.ofNat 32 (tagOf tag).id + BitVec.ofInt 32 traversal.walk.diff
      let userattr := mktag ((tyUserattr + type.toNat) % 2 ^ 16) id.toNat buffer.length
      let traversal ← traversal.dispatch host userattr (.bytes buffer)
      if traversal.res ≠ 0 then pure traversal
      else Traversal.dispatchAttrs host tag rest traversal

/-- `stack[sp].write(frame)` and `sp += 1`, behind which the walk is another one. -/
def Traversal.push (traversal : Traversal σ) (tag : Word) (buffer : TagBuffer) (walk : Walk) :
    Traversal σ ⊕ Ended :=
  if traversal.stack.length < stackSize then
    .inl { traversal with
      walk := walk
      stack := traversal.stack ++ [{ traversal.walk with tag := tag, buffer := buffer }]
      phase := .getNextTag }
  else
    .inr (.outside traversal.stack.length)

/-- The end of `GetNextTag`: a tag that the mask selects is filtered first. -/
def Traversal.select (traversal : Traversal σ) (tag : Word) (buffer : TagBuffer) :
    Traversal σ ⊕ Ended :=
  let walk := traversal.walk
  let mask := mktag 0x7ff 0 0
  if mask &&& walk.tmask &&& tag ≠ mask &&& walk.tmask &&& walk.ttag then
    .inl { traversal with phase := .getNextTag }
  else if (tagOf walk.tmask).id ≠ 0 then
    traversal.push tag buffer (walk.filtering traversal.stack.length)
  else
    .inl { traversal with phase := .processTag tag buffer none }

/-- The phase `GetNextTag`. -/
def Traversal.getNextTag (host : Host σ) (attrs : List TraverseAttr) (traversal : Traversal σ) :
    Traversal σ ⊕ Ended :=
  let walk := traversal.walk
  if walk.nextOff < walk.dir.off then
    match host.readTag traversal.lfs walk.dir.pair.1 walk.nextOff with
    | (.error e, _) => .inr (.returned (.error e))
    | (.ok word, lfs) =>
        Traversal.select { traversal with walk := walk.readOn word, lfs := lfs }
          (walk.readOn word).ptag (.disk walk.dir.pair.1 (walk.nextOff + 4))
  else
    match (if walk.useEmptyAttrs then [] else attrs)[walk.attrI]? with
    | some attr =>
        Traversal.select { traversal with walk := { walk with attrI := walk.attrI + 1 } }
          attr.tag attr.buffer
    | none =>
        if traversal.stack = [] then .inr (.returned (.ok 0))
        else .inl { traversal with res := 0, phase := .popAndProcess }

/-- Behind a dispatch: a result that is not zero ends the walk. -/
def Traversal.dispatched : Except Fault (Traversal σ) → Traversal σ ⊕ Ended
  | .error e => .inr (.returned (.error e))
  | .ok traversal =>
      if traversal.res = 0 then .inl { traversal with phase := .getNextTag }
      else if traversal.stack = [] then .inr (.returned (.ok traversal.res))
      else .inl { traversal with phase := .popAndProcess }

/-- `LfsMdir::try_ref_from_bytes`.  The eight bytes of an `lfs_diskoff` are none. -/
def TagBuffer.asMdir (host : Host σ) : TagBuffer → Option LfsMdir
  | .mdir dir => some dir
  | .bytes buffer => host.asMdir buffer
  | _ => none

/-- `LFS_FROM_MOVE`: walk over the struct and the attributes of an entry of another
directory. -/
def Traversal.move (host : Host σ) (traversal : Traversal σ) (tag : Word) (buffer : TagBuffer) :
    Traversal σ ⊕ Ended :=
  match buffer.asMdir host with
  | none =>
      -- the frame is written before the cast panics
      match traversal.push (mktag fromNoop 0 0) (.bytes []) traversal.walk with
      | .inr ended => .inr ended
      | .inl _ => .inr (.returned (.error (.panic .unwrapNone)))
  | some dir =>
      traversal.push (mktag fromNoop 0 0) (.bytes [])
        (traversal.walk.moving dir (tagOf tag).size (tagOf tag).id)

/-- `LFS_FROM_USERATTRS`. -/
def Traversal.userattrs (host : Host σ) (traversal : Traversal σ) (tag : Word)
    (buffer : TagBuffer) : Traversal σ ⊕ Ended :=
  if (tagOf tag).size * sizeofLfsAttr ≠ buffer.length then
    .inr .asserted
  else
    let list := match buffer with
      | .userattrs attrs => attrs
      | .bytes buffer => host.asUserattrs buffer
      | _ => []
    Traversal.dispatched (Traversal.dispatchAttrs host tag list traversal)

/-- The bytes of `disk` as the frame saved them take the place of the buffer. -/
def TagBuffer.orDisk (buffer : TagBuffer) : Option (Word × ℕ) → TagBuffer
  | some (block, off) => .disk block off
  | none => buffer

/-- The phase `ProcessTag`. -/
def Traversal.process (host : Host σ) (traversal : Traversal σ) (tag : Word) (buffer : TagBuffer)
    (override : Option (Word × ℕ)) : Traversal σ ⊕ Ended :=
  if (tagOf traversal.walk.tmask).id ≠ 0 ∧
      ¬(traversal.walk.first ≤ (tagOf tag).id ∧ (tagOf tag).id < traversal.walk.last) then
    .inl { traversal with phase := .getNextTag }
  else if (tagOf tag).type3 = fromNoop then
    .inl { traversal with phase := .getNextTag }
  else if (tagOf tag).type3 = fromMove then
    match traversal.walk.cb with
    | .filter _ => .inl { traversal with phase := .getNextTag }
    | .caller => traversal.move host tag buffer
  else if (tagOf tag).type3 = fromUserattrs then
    traversal.userattrs host tag buffer
  else
    Traversal.dispatched (traversal.dispatch host tag (buffer.orDisk override))

/-- The phase `PopAndProcess`. -/
def Traversal.pop (traversal : Traversal σ) : Traversal σ ⊕ Ended :=
  match traversal.stack.getLast? with
  | none => .inr (.returned (.ok traversal.res))
  | some frame =>
      .inl { traversal with
        walk := frame.toWalk
        stack := traversal.stack.dropLast
        phase := .processTag frame.tag frame.buffer
          (if isvalid frame.tag then none else some frame.disk) }

/-- A turn of the loop. -/
def Traversal.step (host : Host σ) (attrs : List TraverseAttr) (traversal : Traversal σ) :
    Traversal σ ⊕ Ended :=
  match traversal.phase with
  | .getNextTag => traversal.getNextTag host attrs
  | .processTag tag buffer override => traversal.process host tag buffer override
  | .popAndProcess => traversal.pop

/-- `lfs_dir_traverse`: its variables at the beginning. -/
def lfsDirTraverse (dir : LfsMdir) (off : ℕ) (ptag tmask ttag : Word) (first last : ℕ) (diff : ℤ)
    (lfs : σ) : Traversal σ where
  walk := {
    dir := dir
    off := off
    ptag := ptag
    tmask := tmask
    ttag := ttag
    first := first
    last := last
    diff := diff }
  lfs := lfs

/-! ## What the walks of a traversal are -/

def TagBuffer.OnDisk : TagBuffer → Prop
  | .disk _ _ => True
  | _ => False

/-- The walks of a traversal and of its frames: the walk of the caller, a filter over
it, a walk over the source of a move, and a filter over that. -/
inductive Nested : List Frame → Walk → Prop
  | base {walk : Walk} (hcb : walk.cb = .caller) (hattrs : walk.useEmptyAttrs = false) :
      Nested [] walk
  | filter {walk : Walk} {frame : Frame} (hcb : walk.cb = .filter 0)
      (hmask : (tagOf walk.tmask).id = 0) (hframe : frame.cb = .caller)
      (hattrs : frame.useEmptyAttrs = false) : Nested [frame] walk
  | move {walk : Walk} {frame : Frame} (hcb : walk.cb = .caller)
      (hempty : walk.useEmptyAttrs = true) (hframe : frame.cb = .caller)
      (hattrs : frame.useEmptyAttrs = false) (hnoop : frame.tag = mktag fromNoop 0 0) :
      Nested [frame] walk
  | moveFilter {walk : Walk} {frame inner : Frame} (hcb : walk.cb = .filter 1)
      (hmask : (tagOf walk.tmask).id = 0) (hframe : frame.cb = .caller)
      (hattrs : frame.useEmptyAttrs = false) (hnoop : frame.tag = mktag fromNoop 0 0)
      (hinner : inner.cb = .caller) (hempty : inner.useEmptyAttrs = true)
      (hdisk : inner.buffer.OnDisk) : Nested [frame, inner] walk

/-- What holds at every turn of the loop. -/
structure Traversal.Sound (traversal : Traversal σ) : Prop where
  nested : Nested traversal.stack traversal.walk
  pops : traversal.phase = .popAndProcess → traversal.stack ≠ []
  disk : ∀ tag buffer override, traversal.phase = .processTag tag buffer override →
    traversal.walk.useEmptyAttrs = true → buffer.OnDisk

/-! ## How much is left -/

/-- The bytes and the attributes in front of a walk. -/
def Walk.remaining (attrs : List TraverseAttr) (walk : Walk) : ℕ :=
  walk.dir.off - walk.off + if walk.useEmptyAttrs then 0 else attrs.length - walk.attrI

/-- The phases in the order in which they can follow each other at one tag. -/
def Phase.rank : Phase → ℕ
  | .popAndProcess => 0
  | .getNextTag => 1
  | .processTag tag _ _ => if (tagOf tag).type3 = fromNoop then 2 else 4

/-- A walk inside another one counts as a phase of it. -/
def StackCb.rank : StackCb → ℕ
  | .caller => 3
  | .filter _ => 5

/-- What is left for one walk. -/
abbrev Level := ℕ × ℕ

def Level.Less : Level → Level → Prop := Prod.Lex (· < ·) (· < ·)

/-- What is left for the walks of a traversal, the outermost one first. -/
def Traversal.rank (attrs : List TraverseAttr) (traversal : Traversal σ) : Level × Level × Level :=
  let top : Level := (traversal.walk.remaining attrs, traversal.phase.rank)
  match traversal.stack.map Frame.toWalk with
  | [] => (top, (0, 0), (0, 0))
  | [frame] => ((frame.remaining attrs, traversal.walk.cb.rank), top, (0, 0))
  | frame :: inner :: _ =>
      ((frame.remaining attrs, inner.cb.rank), (inner.remaining attrs, traversal.walk.cb.rank), top)

def RankLess : Level × Level × Level → Level × Level × Level → Prop :=
  Prod.Lex Level.Less (Prod.Lex Level.Less Level.Less)

theorem rankLess_wf : WellFounded RankLess := by
  have hlevel : WellFounded Level.Less := WellFounded.prod_lex Nat.lt_wfRel.wf Nat.lt_wfRel.wf
  exact WellFounded.prod_lex hlevel (WellFounded.prod_lex hlevel hlevel)

variable {host : Host σ} {attrs : List TraverseAttr} {traversal traversal' : Traversal σ}
  {tag : Word} {buffer : TagBuffer} {override : Option (Word × ℕ)}

/-- The walk itself has gone on. -/
theorem Traversal.rankLess_of_top
    (hstack : traversal'.stack.map Frame.toWalk = traversal.stack.map Frame.toWalk)
    (hcb : traversal'.walk.cb = traversal.walk.cb)
    (hless : Level.Less (traversal'.walk.remaining attrs, traversal'.phase.rank)
      (traversal.walk.remaining attrs, traversal.phase.rank)) :
    RankLess (traversal'.rank attrs) (traversal.rank attrs) := by
  rw [Traversal.rank, Traversal.rank, hstack, hcb]
  split
  · exact Prod.Lex.left _ _ hless
  · apply Prod.Lex.right
    exact Prod.Lex.left _ _ hless
  · apply Prod.Lex.right
    exact Prod.Lex.right _ hless

theorem rest_eq_nil {frame : Frame} {rest : List Frame} (hlength : (frame :: rest).length ≤ 1) :
    rest = [] :=
  List.length_eq_zero_iff.mp (Nat.le_zero.mp (Nat.le_of_succ_le_succ hlength))

/-- The walk is left inside another one. -/
theorem Traversal.rankLess_of_push {frame : Frame} (hlength : traversal.stack.length ≤ 1)
    (hstack : traversal'.stack = traversal.stack ++ [frame])
    (hcb : frame.cb = traversal.walk.cb)
    (hless : Level.Less (frame.remaining attrs, traversal'.walk.cb.rank)
      (traversal.walk.remaining attrs, traversal.phase.rank)) :
    RankLess (traversal'.rank attrs) (traversal.rank attrs) := by
  rw [Traversal.rank, Traversal.rank, hstack]
  cases hframes : traversal.stack with
  | nil =>
      simp only [List.nil_append, List.map_cons, List.map_nil]
      exact Prod.Lex.left _ _ hless
  | cons outer rest =>
      rw [hframes] at hlength
      obtain rfl := rest_eq_nil hlength
      simp only [List.cons_append, List.nil_append, List.map_cons, List.map_nil, hcb]
      apply Prod.Lex.right
      exact Prod.Lex.left _ _ hless

/-- The walk is over, and the one around it goes on with the tag it was left at. -/
theorem Traversal.rankLess_of_pop {frame : Frame} (hlength : traversal'.stack.length ≤ 1)
    (hstack : traversal.stack = traversal'.stack ++ [frame])
    (hwalk : traversal'.walk = frame.toWalk)
    (hlt : traversal'.phase.rank < traversal.walk.cb.rank) :
    RankLess (traversal'.rank attrs) (traversal.rank attrs) := by
  have hless : Level.Less (frame.remaining attrs, traversal'.phase.rank)
      (frame.remaining attrs, traversal.walk.cb.rank) := Prod.Lex.right _ hlt
  rw [Traversal.rank, Traversal.rank, hstack, hwalk]
  cases hframes : traversal'.stack with
  | nil =>
      simp only [List.nil_append, List.map_cons, List.map_nil]
      exact Prod.Lex.left _ _ hless
  | cons outer rest =>
      rw [hframes] at hlength
      obtain rfl := rest_eq_nil hlength
      simp only [List.cons_append, List.nil_append, List.map_cons, List.map_nil]
      apply Prod.Lex.right
      exact Prod.Lex.left _ _ hless

/-! ## The stack has room -/

variable {stack : List Frame} {walk walk' : Walk}

theorem Nested.length_le (hnested : Nested stack walk) : stack.length ≤ stackSize := by
  cases hnested with
  | base => exact Nat.zero_le _
  | filter => exact Nat.le_succ 1
  | move => exact Nat.le_succ 1
  | moveFilter => exact le_refl 2

/-- Only the walk of the caller and that of a move push, and one frame is free then. -/
theorem Nested.room (hnested : Nested stack walk) (hcb : walk.cb = .caller) :
    stack.length ≤ 1 := by
  cases hnested with
  | base => exact Nat.zero_le 1
  | filter => exact le_refl 1
  | move => exact le_refl 1
  | moveFilter hfilter =>
      rw [hcb] at hfilter
      cases hfilter

theorem Nested.caller_of_mask (hnested : Nested stack walk) (hmask : (tagOf walk.tmask).id ≠ 0) :
    walk.cb = .caller := by
  cases hnested with
  | base hcb => exact hcb
  | move hcb => exact hcb
  | filter hcb hzero => exact absurd hzero hmask
  | moveFilter hcb hzero => exact absurd hzero hmask

theorem Nested.congr (hnested : Nested stack walk) (hcb : walk'.cb = walk.cb)
    (hattrs : walk'.useEmptyAttrs = walk.useEmptyAttrs) (hmask : walk'.tmask = walk.tmask) :
    Nested stack walk' := by
  cases hnested with
  | base hcaller hfalse => exact Nested.base (hcb.trans hcaller) (hattrs.trans hfalse)
  | filter hfilter hzero hframe hfalse =>
      exact Nested.filter (hcb.trans hfilter) (by rw [hmask]; exact hzero) hframe hfalse
  | move hcaller hempty hframe hfalse hnoop =>
      exact Nested.move (hcb.trans hcaller) (hattrs.trans hempty) hframe hfalse hnoop
  | moveFilter hfilter hzero hframe hfalse hnoop hinner hempty hdisk =>
      exact Nested.moveFilter (hcb.trans hfilter) (by rw [hmask]; exact hzero) hframe hfalse hnoop
        hinner hempty hdisk

/-- A filter over the walk of the caller or over that of a move. -/
theorem Nested.push_filter (hnested : Nested stack walk) (hcaller : walk.cb = .caller)
    (hdisk : walk.useEmptyAttrs = true → buffer.OnDisk) (hcb : walk'.cb = .filter stack.length)
    (hmask : (tagOf walk'.tmask).id = 0) :
    Nested (stack ++ [{ walk with tag := tag, buffer := buffer }]) walk' := by
  cases hnested with
  | base _ hattrs => exact Nested.filter hcb hmask hcaller hattrs
  | move _ hempty hframe hattrs hnoop =>
      exact Nested.moveFilter hcb hmask hframe hattrs hnoop hcaller hempty (hdisk hempty)
  | filter hfilter =>
      rw [hcaller] at hfilter
      cases hfilter
  | moveFilter hfilter =>
      rw [hcaller] at hfilter
      cases hfilter

theorem Traversal.push_eq (hroom : traversal.stack.length ≤ 1) (tag : Word)
    (buffer : TagBuffer) (walk : Walk) : traversal.push tag buffer walk = .inl { traversal with
      walk := walk
      stack := traversal.stack ++ [{ traversal.walk with tag := tag, buffer := buffer }]
      phase := .getNextTag } :=
  if_pos (Nat.lt_succ_of_le hroom)

/-! ## What a turn keeps -/

/-- A turn goes on with less left, or the traversal ends without a stray index. -/
def Traversal.Goes (attrs : List TraverseAttr) (old : Traversal σ) :
    Traversal σ ⊕ Ended → Prop
  | .inl traversal => traversal.Sound ∧ RankLess (traversal.rank attrs) (old.rank attrs)
  | .inr (.outside _) => False
  | .inr _ => True

/-- A tag that a walk has gone on to. -/
theorem Traversal.goes_select {old : Traversal σ} (hnested : Nested traversal.stack traversal.walk)
    (hdisk : traversal.walk.useEmptyAttrs = true → buffer.OnDisk)
    (hstack : traversal.stack = old.stack) (hcb : traversal.walk.cb = old.walk.cb)
    (hlt : traversal.walk.remaining attrs < old.walk.remaining attrs) :
    Traversal.Goes attrs old (traversal.select tag buffer) := by
  have hframes : traversal.stack.map Frame.toWalk = old.stack.map Frame.toWalk := by rw [hstack]
  rw [Traversal.select]
  split
  · apply And.intro
    · exact ⟨hnested, Phase.noConfusion, fun _ _ _ => Phase.noConfusion⟩
    · exact Traversal.rankLess_of_top hframes hcb (Prod.Lex.left _ _ hlt)
  · split
    · rename_i hmask
      have hcaller := hnested.caller_of_mask hmask
      have hroom := hnested.room hcaller
      rw [Traversal.push_eq hroom]
      apply And.intro
      · refine ⟨?_, Phase.noConfusion, fun _ _ _ => Phase.noConfusion⟩
        exact hnested.push_filter hcaller hdisk rfl (by decide : (tagOf (0 : Word)).id = 0)
      · apply Traversal.rankLess_of_push (by rw [← hstack]; exact hroom) (by rw [← hstack]) hcb
        exact Prod.Lex.left _ _ hlt
    · apply And.intro
      · refine ⟨hnested, Phase.noConfusion, ?_⟩
        intro tag' buffer' override hphase
        cases hphase
        exact hdisk
      · exact Traversal.rankLess_of_top hframes hcb (Prod.Lex.left _ _ hlt)

theorem Walk.nextOff_lt (walk : Walk) : walk.off < walk.nextOff :=
  Nat.lt_of_lt_of_le (Nat.lt_add_of_pos_right (by norm_num : 0 < 4))
    (Nat.add_le_add_left (Nat.le_add_right 4 _) walk.off)

theorem Walk.remaining_readOn (hfits : walk.nextOff < walk.dir.off) (word : Word) :
    (walk.readOn word).remaining attrs < walk.remaining attrs := by
  have hlt : walk.dir.off - walk.nextOff < walk.dir.off - walk.off :=
    Nat.sub_lt_sub_left (walk.nextOff_lt.trans hfits) walk.nextOff_lt
  exact Nat.add_lt_add_right hlt _

theorem Walk.remaining_attr {attr : TraverseAttr}
    (hattr : (if walk.useEmptyAttrs then [] else attrs)[walk.attrI]? = some attr) :
    walk.useEmptyAttrs = false ∧
      Walk.remaining attrs { walk with attrI := walk.attrI + 1 } < walk.remaining attrs := by
  cases hempty : walk.useEmptyAttrs with
  | true =>
      rw [hempty, if_pos rfl] at hattr
      cases hattr
  | false =>
      rw [hempty, if_neg Bool.false_ne_true] at hattr
      obtain ⟨hlt, -⟩ := List.getElem?_eq_some_iff.mp hattr
      refine ⟨rfl, ?_⟩
      simp only [Walk.remaining, hempty, Bool.false_eq_true, if_false]
      omega

theorem Traversal.Sound.getNextTag (hsound : traversal.Sound)
    (hphase : traversal.phase = .getNextTag) :
    Traversal.Goes attrs traversal (traversal.getNextTag host attrs) := by
  have hnested := hsound.nested
  rw [Traversal.getNextTag]
  split
  · rename_i hfits
    split
    · exact True.intro
    · apply Traversal.goes_select
      · exact hnested.congr rfl rfl rfl
      · exact fun _ => True.intro
      · rfl
      · rfl
      · exact Walk.remaining_readOn hfits _
  · split
    · rename_i attr hattr
      obtain ⟨hfalse, hlt⟩ := Walk.remaining_attr hattr
      apply Traversal.goes_select
      · exact hnested.congr rfl rfl rfl
      · intro hempty
        exact absurd (hfalse.symm.trans hempty) Bool.false_ne_true
      · rfl
      · rfl
      · exact hlt
    · split
      · exact True.intro
      · rename_i hstack
        apply And.intro
        · exact ⟨hnested, fun _ => hstack, fun _ _ _ => Phase.noConfusion⟩
        · apply Traversal.rankLess_of_top
          · rfl
          · rfl
          · rw [hphase]
            exact Prod.Lex.right _ Nat.zero_lt_one

/-- The filter rewrites the tag of the frame that its pointer leads to. -/
theorem Nested.retag {slot : ℕ} {frame : Frame} (hnested : Nested stack walk)
    (hcb : walk.cb = .filter slot) (hframe : stack[slot]? = some frame) (tag : Word) :
    Nested (stack.set slot { frame with tag := tag }) walk ∧
      (stack.set slot { frame with tag := tag }).map Frame.toWalk = stack.map Frame.toWalk := by
  cases hnested with
  | base hcaller =>
      rw [hcaller] at hcb
      cases hcb
  | move hcaller =>
      rw [hcaller] at hcb
      cases hcb
  | filter hfilter hmask hcaller hattrs =>
      rw [hfilter] at hcb
      cases hcb
      cases hframe
      exact ⟨Nested.filter hfilter hmask hcaller hattrs, rfl⟩
  | moveFilter hfilter hmask hcaller hattrs hnoop hinner hempty hdisk =>
      rw [hfilter] at hcb
      cases hcb
      cases hframe
      exact ⟨Nested.moveFilter hfilter hmask hcaller hattrs hnoop hinner hempty hdisk, rfl⟩

/-- Two traversals at the same place in their walks. -/
structure Traversal.Alike (traversal' traversal : Traversal σ) : Prop where
  walk_eq : traversal'.walk = traversal.walk
  nested : Nested traversal'.stack traversal'.walk
  frames_eq : traversal'.stack.map Frame.toWalk = traversal.stack.map Frame.toWalk

/-- A dispatch changes no walk, and of the frames at most the tag that is filtered. -/
theorem Traversal.alike_dispatch (hnested : Nested traversal.stack traversal.walk)
    (hdispatch : traversal.dispatch host tag buffer = .ok traversal') :
    traversal'.Alike traversal := by
  rw [Traversal.dispatch] at hdispatch
  split at hdispatch
  · split at hdispatch
    · cases hdispatch
    · cases hdispatch
      exact ⟨rfl, hnested, rfl⟩
  · rename_i slot hcb
    split at hdispatch
    · cases hdispatch
      exact ⟨rfl, hnested, rfl⟩
    · rename_i frame hframe
      cases hdispatch
      have hretag := hnested.retag hcb hframe
      exact ⟨rfl, (hretag _).1, (hretag _).2⟩

theorem Traversal.alike_dispatchAttrs {list : List (Octet × List Octet)}
    (hnested : Nested traversal.stack traversal.walk)
    (hdispatch : Traversal.dispatchAttrs host tag list traversal = .ok traversal') :
    traversal'.Alike traversal := by
  induction list generalizing traversal with
  | nil =>
      cases hdispatch
      exact ⟨rfl, hnested, rfl⟩
  | cons attr rest ih =>
      rw [Traversal.dispatchAttrs] at hdispatch
      cases hfirst : traversal.dispatch host
          (mktag ((tyUserattr + attr.1.toNat) % 2 ^ 16)
            (BitVec.ofNat 32 (tagOf tag).id + BitVec.ofInt 32 traversal.walk.diff).toNat
            attr.2.length) (.bytes attr.2) with
      | error fault =>
          simp only [hfirst] at hdispatch
          cases hdispatch
      | ok middle =>
          have halike := Traversal.alike_dispatch hnested hfirst
          simp only [hfirst] at hdispatch
          change (if middle.res ≠ 0 then Except.ok middle else _) = _ at hdispatch
          split at hdispatch
          · cases hdispatch
            exact halike
          · have hrest := ih halike.nested hdispatch
            exact ⟨hrest.walk_eq.trans halike.walk_eq, hrest.nested,
              hrest.frames_eq.trans halike.frames_eq⟩

/-- A tag that is no `LFS_FROM_NOOP` has been handed on. -/
theorem Traversal.goes_dispatched {result : Except Fault (Traversal σ)}
    (hphase : traversal.phase = .processTag tag buffer override)
    (htype : (tagOf tag).type3 ≠ fromNoop)
    (halike : ∀ traversal', result = .ok traversal' → traversal'.Alike traversal) :
    Traversal.Goes attrs traversal (Traversal.dispatched result) := by
  have hrank : traversal.phase.rank = 4 := by rw [hphase]; exact if_neg htype
  cases result with
  | error fault => exact True.intro
  | ok traversal' =>
      obtain ⟨hwalk, hnested, hframes⟩ := halike traversal' rfl
      have hless : ∀ phase : Phase, phase.rank < 4 →
          Level.Less (traversal'.walk.remaining attrs, phase.rank)
            (traversal.walk.remaining attrs, traversal.phase.rank) := by
        intro phase hlt
        rw [hwalk, hrank]
        exact Prod.Lex.right _ hlt
      have hcb : traversal'.walk.cb = traversal.walk.cb := congrArg Walk.cb hwalk
      rw [Traversal.dispatched]
      split
      · apply And.intro
        · exact ⟨hnested, Phase.noConfusion, fun _ _ _ => Phase.noConfusion⟩
        · exact Traversal.rankLess_of_top hframes hcb (hless .getNextTag (by decide))
      · split
        · exact True.intro
        · rename_i hstack
          apply And.intro
          · exact ⟨hnested, fun _ => hstack, fun _ _ _ => Phase.noConfusion⟩
          · exact Traversal.rankLess_of_top hframes hcb (hless .popAndProcess (by decide))

/-- A turn that passes a tag over. -/
theorem Traversal.Sound.goes_over (hsound : traversal.Sound)
    (hphase : traversal.phase = .processTag tag buffer override) :
    Traversal.Goes attrs traversal (.inl { traversal with phase := .getNextTag }) := by
  have hrank : 1 < traversal.phase.rank := by
    rw [hphase, Phase.rank]
    split <;> norm_num
  apply And.intro
  · exact ⟨hsound.nested, Phase.noConfusion, fun _ _ _ => Phase.noConfusion⟩
  · apply Traversal.rankLess_of_top
    · rfl
    · rfl
    · exact Prod.Lex.right _ hrank

/-- Only the walk of the caller goes into a move: the tags of the source of a move come
from disk, and their eight bytes are no `LfsMdir`. -/
theorem Traversal.Sound.goes_move (hsound : traversal.Sound)
    (hphase : traversal.phase = .processTag tag buffer override)
    (htype : (tagOf tag).type3 ≠ fromNoop) (hcb : traversal.walk.cb = .caller) :
    Traversal.Goes attrs traversal (traversal.move host tag buffer) := by
  have hroom := hsound.nested.room hcb
  have hrank : traversal.phase.rank = 4 := by rw [hphase]; exact if_neg htype
  rw [Traversal.move.eq_def]
  cases hsource : buffer.asMdir host with
  | none =>
      rw [Traversal.push_eq hroom]
      exact True.intro
  | some dir =>
      have hattrs : traversal.walk.useEmptyAttrs = false := by
        cases hempty : traversal.walk.useEmptyAttrs with
        | false => rfl
        | true =>
            have hdisk := hsound.disk tag buffer override hphase hempty
            cases buffer with
            | disk block off => cases hsource
            | bytes _ => exact hdisk.elim
            | mdir _ => exact hdisk.elim
            | userattrs _ => exact hdisk.elim
      have hnested := hsound.nested
      simp only [Traversal.push_eq hroom]
      apply And.intro
      · refine ⟨?_, Phase.noConfusion, fun _ _ _ => Phase.noConfusion⟩
        simp only
        generalize traversal.stack = stack at hnested
        cases hnested with
        | base => exact Nested.move hcb rfl hcb hattrs rfl
        | move _ hempty =>
            rw [hattrs] at hempty
            cases hempty
        | filter hfilter =>
            rw [hcb] at hfilter
            cases hfilter
        | moveFilter hfilter =>
            rw [hcb] at hfilter
            cases hfilter
      · apply Traversal.rankLess_of_push hroom rfl rfl
        apply Prod.Lex.right
        rw [hrank]
        change traversal.walk.cb.rank < 4
        rw [hcb]
        decide

theorem Traversal.Sound.process (hsound : traversal.Sound)
    (hphase : traversal.phase = .processTag tag buffer override) :
    Traversal.Goes attrs traversal (traversal.process host tag buffer override) := by
  rw [Traversal.process.eq_def]
  split
  · exact hsound.goes_over hphase
  · split
    · exact hsound.goes_over hphase
    · rename_i htype
      split
      · split
        · exact hsound.goes_over hphase
        · rename_i hcb
          exact hsound.goes_move hphase htype hcb
      · split
        · rw [Traversal.userattrs.eq_def]
          split
          · exact True.intro
          · apply Traversal.goes_dispatched hphase htype
            exact fun _ => Traversal.alike_dispatchAttrs hsound.nested
        · apply Traversal.goes_dispatched hphase htype
          exact fun _ => Traversal.alike_dispatch hsound.nested

theorem Phase.rank_processTag_le : (Phase.processTag tag buffer override).rank ≤ 4 := by
  rw [Phase.rank]
  split <;> norm_num

/-- A walk that is popped goes on with the tag it was left at. -/
theorem Traversal.goes_pop {frame : Frame} (hlength : stack.length ≤ 1)
    (hstack : traversal.stack = stack ++ [frame]) (hnested : Nested stack frame.toWalk)
    (hdisk : frame.useEmptyAttrs = true → frame.buffer.OnDisk)
    (hrank : ∀ override, (Phase.processTag frame.tag frame.buffer override).rank <
      traversal.walk.cb.rank) : Traversal.Goes attrs traversal traversal.pop := by
  rw [Traversal.pop, hstack, List.getLast?_concat, List.dropLast_concat]
  apply And.intro
  · refine ⟨hnested, Phase.noConfusion, ?_⟩
    intro tag buffer override hprocess
    cases hprocess
    exact hdisk
  · exact Traversal.rankLess_of_pop hlength hstack rfl (hrank _)

theorem Traversal.Sound.pop (hsound : traversal.Sound) (hphase : traversal.phase = .popAndProcess) :
    Traversal.Goes attrs traversal traversal.pop := by
  have hne := hsound.pops hphase
  have hnested := hsound.nested
  have hbelow : traversal.walk.cb.rank = 5 → ∀ {tag buffer override},
      (Phase.processTag tag buffer override).rank < traversal.walk.cb.rank := by
    intro hfive tag buffer override
    rw [hfive]
    exact Nat.lt_succ_of_le Phase.rank_processTag_le
  have hshort : ([] : List Frame).length ≤ 1 := Nat.zero_le 1
  generalize hstack : traversal.stack = stack at hne hnested
  cases hnested with
  | base => exact absurd rfl hne
  | filter hcb hmask hframe hattrs =>
      apply Traversal.goes_pop hshort hstack (Nested.base hframe hattrs)
      · intro hempty
        exact absurd (hattrs.symm.trans hempty) Bool.false_ne_true
      · exact fun _ => hbelow (by rw [hcb]; rfl)
  | move hcb hempty hframe hattrs hnoop =>
      apply Traversal.goes_pop hshort hstack (Nested.base hframe hattrs)
      · intro hempty
        exact absurd (hattrs.symm.trans hempty) Bool.false_ne_true
      · intro override
        have hnoopType : (tagOf (mktag fromNoop 0 0)).type3 = fromNoop := by decide
        rw [hnoop, hcb, Phase.rank, if_pos hnoopType]
        decide
  | moveFilter hcb hmask hframe hattrs hnoop hinner hempty hdisk =>
      have hnested := Nested.move hinner hempty hframe hattrs hnoop
      apply Traversal.goes_pop (le_refl 1) hstack hnested (fun _ => hdisk)
      exact fun _ => hbelow (by rw [hcb]; rfl)

theorem Traversal.Sound.step (hsound : traversal.Sound) :
    Traversal.Goes attrs traversal (traversal.step host attrs) := by
  rw [Traversal.step]
  split
  · rename_i hphase
    exact hsound.getNextTag hphase
  · rename_i tag buffer override hphase
    exact hsound.process hphase
  · rename_i hphase
    exact hsound.pop hphase

/-! ## Every traversal -/

theorem lfsDirTraverse_sound (dir : LfsMdir) (off : ℕ) (ptag tmask ttag : Word) (first last : ℕ)
    (diff : ℤ) (lfs : σ) : (lfsDirTraverse dir off ptag tmask ttag first last diff lfs).Sound :=
  ⟨Nested.base rfl rfl, Phase.noConfusion, fun _ _ _ => Phase.noConfusion⟩

/-- A traversal, over whatever block and attributes and with whatever pattern and
callback, has at most two frames, never indexes its stack outside, pops only a frame
that is there, and ends. -/
theorem lfsDirTraverse_ends (host : Host σ) (attrs : List TraverseAttr) (dir : LfsMdir) (off : ℕ)
    (ptag tmask ttag : Word) (first last : ℕ) (diff : ℤ) (lfs : σ) :
    (∀ traversal : Traversal σ, Machines.Reaches (Traversal.step host attrs)
        (lfsDirTraverse dir off ptag tmask ttag first last diff lfs) traversal →
      traversal.stack.length ≤ stackSize ∧
        (∀ index, traversal.step host attrs ≠ .inr (.outside index)) ∧
        (traversal.phase = .popAndProcess → traversal.stack ≠ [])) ∧
      ∃ fuel ended, Machines.run (Traversal.step host attrs) fuel
        (lfsDirTraverse dir off ptag tmask ttag first last diff lfs) = some ended := by
  have hstart := lfsDirTraverse_sound dir off ptag tmask ttag first last diff lfs
  have hsteps : ∀ traversal traversal' : Traversal σ, traversal.Sound →
      traversal.step host attrs = .inl traversal' →
        traversal'.Sound ∧ RankLess (traversal'.rank attrs) (traversal.rank attrs) := by
    intro traversal traversal' hsound hstep
    have hgoes : Traversal.Goes attrs traversal (traversal.step host attrs) := hsound.step
    rwa [hstep] at hgoes
  constructor
  · intro traversal hreaches
    have hsound := hreaches.keeps (fun _ _ hsound hstep => (hsteps _ _ hsound hstep).1) hstart
    refine ⟨hsound.nested.length_le, ?_, hsound.pops⟩
    intro index hstep
    have hgoes : Traversal.Goes attrs traversal (traversal.step host attrs) := hsound.step
    rw [hstep] at hgoes
    exact hgoes
  · exact Machines.run_ends rankLess_wf (Traversal.rank attrs) hsteps hstart

end Littlefs.Disk
