import Littlefs.Allocation

/-!
# The blocks in use

What `lfs_fs_traverse_` hands to its callback does not depend on the callback,
the window or the accesses to come.  A scan that succeeds has marked exactly
these blocks.
-/

namespace Littlefs

open Program Lookahead

/-- The filesystem without a window, on a device that answers every access. -/
def Lfs.bare (lfs : Lfs) : Lfs := { lfs with script := [], lookahead := {} }

/-- The callback that lists the blocks. -/
def listBlock (blocks : List Block) (block : Block) : FsM (List Block) :=
  return blocks ++ [block]

/-- The blocks that `lfs_fs_traverse_` reports, if it ends with `Ok`. -/
def reported (lfs : Lfs) : Option (List Block) :=
  match lfsFsTraverse listBlock true [] lfs.bare with
  | .ok blocks _ => some blocks
  | .error _ _ => none

/-- The window with the bits of `blocks` set. -/
def Lookahead.markAll (window : Lookahead) (blockCount : ℕ) (blocks : List Block) : Lookahead :=
  blocks.foldl (fun window block => window.mark blockCount block) window

@[simp]
theorem markAll_nil (window : Lookahead) (blockCount : ℕ) :
    window.markAll blockCount [] = window := List.foldl_nil

@[simp]
theorem markAll_cons (window : Lookahead) (blockCount : ℕ) (block : Block)
    (blocks : List Block) : window.markAll blockCount (block :: blocks) =
      (window.mark blockCount block).markAll blockCount blocks := List.foldl_cons ..

theorem markAll_append (window : Lookahead) (blockCount : ℕ) (blocks more : List Block) :
    window.markAll blockCount (blocks ++ more) =
      (window.markAll blockCount blocks).markAll blockCount more := List.foldl_append

/-! ## Reads on the bare device -/

/-- A program that reads, and ends as on the bare device or with `Io`. -/
def Bare {α : Type} (program : FsM α) : Prop :=
  ∀ lfs, Outcome program
    (fun value lfs' => Reads lfs lfs' ∧ program lfs.bare = .ok value lfs.bare)
    (fun failure lfs' => Reads lfs lfs' ∧
      Excused lfs failure (program lfs.bare = .error failure lfs.bare)) lfs

theorem Reads.bare {lfs lfs' : Lfs} (hreads : Reads lfs lfs') : lfs'.bare = lfs.bare := by
  rw [hreads.eq]
  rfl

namespace Bare

variable {α β : Type}

theorem pure (value : α) : Bare (Pure.pure value) := fun lfs => ⟨Reads.refl lfs, rfl⟩

theorem failWith (e : Error) : Bare (Littlefs.failWith e : FsM α) := fun lfs =>
  ⟨Reads.refl lfs, Or.inr rfl⟩

theorem bind {program : FsM α} {next : α → FsM β} (hprogram : Bare program)
    (hnext : ∀ value, Bare (next value)) : Bare (program >>= next) := by
  intro lfs
  rw [outcome_bind]
  apply (hprogram lfs).imp
  · intro value middle hmiddle
    obtain ⟨hreads, hbare⟩ := hmiddle
    rw [bind_of_ok hbare, ← hreads.bare]
    apply (hnext value middle).imp
    · exact fun _ _ h => ⟨hreads.trans h.1, h.2⟩
    · exact fun _ _ h => ⟨hreads.trans h.1, h.2.imp hreads id⟩
  · intro failure middle hmiddle
    exact ⟨hmiddle.1, hmiddle.2.imp (Reads.refl lfs) fun h => bind_eq_error.mpr (Or.inl h)⟩

/-- A program may ask for everything but the script and the window. -/
theorem get_bind {next : Lfs → FsM α} (hbare : ∀ lfs, next lfs.bare = next lfs)
    (hnext : ∀ lfs, Bare (next lfs)) : Bare (get >>= next) := by
  intro lfs
  have hrun : (get >>= next) lfs.bare = next lfs lfs.bare := by
    rw [← hbare]
    rfl
  rw [outcome_bind, outcome_get, hrun]
  exact hnext lfs lfs

theorem ite {condition : Prop} [Decidable condition] {program other : FsM α}
    (hyes : Bare program) (hno : Bare other) : Bare (if condition then program else other) := by
  split
  · exact hyes
  · exact hno

theorem liftExcept (value : Except Error α) : Bare (Littlefs.liftExcept value) := by
  cases value with
  | ok value => exact pure value
  | error e => exact failWith e

end Bare

theorem bare_readBlock (block : Block) : Bare (readBlock block) := by
  intro lfs
  have hget : (get : FsM Lfs) lfs.bare = .ok lfs.bare lfs.bare := rfl
  apply (outcome_readBlock block lfs).imp
  · intro image lfs' h
    obtain ⟨rfl, hdevice, hreads⟩ := h
    have hrange : ¬(lfs.bare.blockCount ≠ 0 ∧ lfs.bare.blockCount ≤ block) := hdevice
    refine ⟨hreads, ?_⟩
    rw [readBlock, bind_of_ok hget]
    simp only [if_neg hrange]
    rfl
  · intro failure lfs' h
    refine ⟨h.1, h.2.symm.imp id fun hfails => ?_⟩
    obtain ⟨rfl, hdevice⟩ := hfails
    have hrange : lfs.bare.blockCount ≠ 0 ∧ lfs.bare.blockCount ≤ block := not_not.mp hdevice
    rw [readBlock, bind_of_ok hget]
    simp only [if_pos hrange]
    rfl

theorem bare_lfsDirFetch (pair : Pair) : Bare (lfsDirFetch pair) := by
  apply Bare.bind
  · unfold lfsDirFetchmatch
    apply Bare.get_bind (fun _ => rfl)
    intro lfs
    apply Bare.ite
    · exact Bare.bind (Bare.failWith _) fun _ =>
        Bare.bind (bare_readBlock _) fun _ => Bare.liftExcept _
    · exact Bare.bind (bare_readBlock _) fun _ => Bare.liftExcept _
  · exact fun fetched => Bare.pure _

theorem bare_lfsDirGet (dir : Mdir) (gmask : Mask) (gtag : Tag) :
    Bare (lfsDirGet dir gmask gtag) := by
  apply Bare.bind
  · exact Bare.ite (Bare.pure _) (Bare.bind (bare_readBlock _) fun _ => Bare.pure _)
  · intro log
    apply Bare.get_bind (fun _ => rfl)
    intro lfs
    cases getslice lfs.gdisk dir log gmask gtag with
    | none => exact Bare.failWith _
    | some attr => exact Bare.pure _

/-! ## A scan and the list of blocks -/

/-- The accesses and the marks of a scan that has met `blocks`. -/
structure Met (blocks : List Block) (lfs lfs' : Lfs) : Prop where
  eq : lfs' = { lfs with script := lfs'.script,
                         lookahead := lfs.lookahead.markAll lfs.blockCount blocks }
  suffix : lfs'.script <:+ lfs.script

namespace Met

variable {blocks more : List Block} {lfs middle lfs' : Lfs}

theorem of_reads (hreads : Reads lfs lfs') : Met [] lfs lfs' := by
  refine ⟨?_, hreads.suffix⟩
  rw [hreads.eq, markAll_nil]

theorem trans (hleft : Met blocks lfs middle) (hright : Met more middle lfs') :
    Met (blocks ++ more) lfs lfs' := by
  refine ⟨?_, hright.suffix.trans hleft.suffix⟩
  rw [hright.eq, hleft.eq, markAll_append]

theorem bare (hmet : Met blocks lfs lfs') : lfs'.bare = lfs.bare := by
  rw [hmet.eq]
  rfl

theorem answered (hmet : Met blocks lfs lfs') (hanswered : Answered lfs) : Answered lfs' :=
  fun event hevent => hanswered event (hmet.suffix.subset hevent)

end Met

/-- `scan` marks the blocks that `list` lists, and fails as `list` does or with `Io`. -/
def Lists (scan : FsM Unit) (list : List Block → FsM (List Block)) : Prop :=
  ∀ lfs, Outcome scan
    (fun _ lfs' => ∃ blocks, Met blocks lfs lfs' ∧
      ∀ acc, list acc lfs.bare = .ok (acc ++ blocks) lfs.bare)
    (fun failure _ => Excused lfs failure
      (∀ acc, ∃ lfs'', list acc lfs.bare = .error failure lfs'')) lfs

namespace Lists

variable {scan next : FsM Unit} {list more : List Block → FsM (List Block)}

theorem pure : Lists (Pure.pure ()) fun acc => Pure.pure acc := fun lfs =>
  ⟨[], .of_reads (Reads.refl lfs), fun acc => by rw [List.append_nil]; rfl⟩

theorem throw (fault : Fault) : Lists (throw fault) fun _ => throw fault := fun lfs =>
  Or.inr fun _ => ⟨lfs.bare, rfl⟩

theorem block (block : Block) : Lists (lfsAllocLookahead block) fun acc => listBlock acc block :=
  fun lfs => ⟨[block], ⟨by rw [markAll_cons, markAll_nil], List.suffix_rfl⟩, fun _ => rfl⟩

/-- What is left of a scan that has met `blocks`. -/
theorem resume (hnext : Lists next more) {blocks : List Block} {lfs middle : Lfs}
    (hmet : Met blocks lfs middle)
    (hlist : ∀ acc, list acc lfs.bare = .ok (acc ++ blocks) lfs.bare) :
    Outcome next
      (fun _ lfs' => ∃ blocks, Met blocks lfs lfs' ∧
        ∀ acc, (list acc >>= more) lfs.bare = .ok (acc ++ blocks) lfs.bare)
      (fun failure _ => Excused lfs failure
        (∀ acc, ∃ lfs'', (list acc >>= more) lfs.bare = .error failure lfs'')) middle := by
  apply (hnext middle).imp
  · intro _ lfs' hlfs'
    obtain ⟨blocks', hmet', hlist'⟩ := hlfs'
    refine ⟨blocks ++ blocks', hmet.trans hmet', fun acc => ?_⟩
    rw [bind_of_ok (hlist acc), ← hmet.bare, hlist', List.append_assoc]
  · intro failure lfs' hfailure
    apply hfailure.elim
    · exact fun h => Or.inl ⟨h.1, fun hanswered => h.2 (hmet.answered hanswered)⟩
    · intro h
      refine Or.inr fun acc => ?_
      rw [bind_of_ok (hlist acc), ← hmet.bare]
      exact h _

theorem bind (hscan : Lists scan list) (hnext : Lists next more) :
    Lists (scan >>= fun _ => next) fun acc => list acc >>= more := by
  intro lfs
  rw [outcome_bind]
  apply (hscan lfs).imp
  · intro _ middle hmiddle
    obtain ⟨blocks, hmet, hlist⟩ := hmiddle
    exact hnext.resume hmet hlist
  · intro failure middle hmiddle
    apply Or.imp id _ hmiddle
    intro h acc
    obtain ⟨lfs'', hrun⟩ := h acc
    exact ⟨lfs'', bind_eq_error.mpr (Or.inl hrun)⟩

/-- Reading before both. -/
theorem read_bind {α : Type} {program : FsM α} {scan : α → FsM Unit}
    {list : α → List Block → FsM (List Block)} (hprogram : Bare program)
    (hnext : ∀ value, Lists (scan value) (list value)) :
    Lists (program >>= scan) fun acc => program >>= fun value => list value acc := by
  intro lfs
  rw [outcome_bind]
  apply (hprogram lfs).imp
  · intro value middle hmiddle
    obtain ⟨hreads, hbare⟩ := hmiddle
    have hrun : ∀ acc, (program >>= fun value => list value acc) lfs.bare =
        (Pure.pure acc >>= list value) lfs.bare := fun acc => bind_of_ok hbare _
    simp only [hrun]
    exact (hnext value).resume (.of_reads hreads) fun acc => by rw [List.append_nil]; rfl
  · intro failure middle hmiddle
    apply Or.imp id _ hmiddle.2
    exact fun h acc => ⟨lfs.bare, bind_eq_error.mpr (Or.inl h)⟩

theorem get_bind {scan : Lfs → FsM Unit} {list : Lfs → List Block → FsM (List Block)}
    (hbare : ∀ lfs, list lfs.bare = list lfs) (hnext : ∀ lfs, Lists (scan lfs) (list lfs)) :
    Lists (get >>= scan) fun acc => get >>= fun lfs => list lfs acc := by
  intro lfs
  have hrun : ∀ acc, (get >>= fun lfs => list lfs acc) lfs.bare = list lfs acc lfs.bare := by
    intro acc
    change list lfs.bare acc lfs.bare = _
    rw [hbare]
  rw [outcome_bind, outcome_get]
  simp only [hrun]
  exact hnext lfs lfs

theorem ite {condition : Prop} [Decidable condition] (hyes : Lists scan list)
    (hno : Lists next more) :
    Lists (if condition then scan else next) fun acc =>
      if condition then list acc else more acc := by
  by_cases hcondition : condition
  · simpa only [if_pos hcondition] using hyes
  · simpa only [if_neg hcondition] using hno

theorem foldlM {γ : Type} {step : Unit → γ → FsM Unit}
    {listStep : List Block → γ → FsM (List Block)} (inputs : List γ)
    (hstep : ∀ input, Lists (step () input) fun acc => listStep acc input) :
    Lists (inputs.foldlM step ()) fun acc => inputs.foldlM listStep acc := by
  induction inputs with
  | nil => exact pure
  | cons input inputs ih =>
      simp only [List.foldlM_cons]
      exact bind (hstep input) ih

end Lists

theorem lists_lfsCtzTraverseGo (fuel : ℕ) (head : Block) (index : ℕ) :
    Lists (lfsCtzTraverseGo markBlock fuel head index ())
      fun acc => lfsCtzTraverseGo listBlock fuel head index acc := by
  induction fuel generalizing head index with
  | zero => exact Lists.throw _
  | succ fuel ih =>
      simp only [lfsCtzTraverseGo]
      apply Lists.bind (Lists.block head)
      apply Lists.ite Lists.pure
      apply Lists.read_bind (bare_readBlock head)
      intro image
      apply Lists.ite (ih _ _)
      exact Lists.bind (Lists.block _) (ih _ _)

theorem lists_lfsCtzTraverse (head : Block) (size : ℕ) :
    Lists (lfsCtzTraverse markBlock head size ())
      fun acc => lfsCtzTraverse listBlock head size acc :=
  Lists.ite Lists.pure (Lists.get_bind (fun _ => rfl) fun _ => lists_lfsCtzTraverseGo _ _ _)

/-- A panic passes. -/
theorem tryError_of_fault {α : Type} {program : FsM α} {lfs lfs' : Lfs} {fault : Fault}
    (hrun : program lfs = .error fault lfs') (hfault : fault.toError? = none) :
    tryError program lfs = .error fault lfs' := by
  unfold tryError Program.attempt
  rw [hrun]
  simp [hfault]

/-- The blocks behind one struct. -/
theorem lists_struct (attr : Attr) :
    Lists (if attr.1.type3 = tyCtzstruct then
        lfsCtzTraverse markBlock attr.2.toPair.1 attr.2.toPair.2 ()
      else if (true = true) ∧ attr.1.type3 = tyDirstruct then
        (do let acc ← markBlock () attr.2.toPair.1; markBlock acc attr.2.toPair.2)
      else pure ()) fun acc => if attr.1.type3 = tyCtzstruct then
        lfsCtzTraverse listBlock attr.2.toPair.1 attr.2.toPair.2 acc
      else if (true = true) ∧ attr.1.type3 = tyDirstruct then
        (do let acc ← listBlock acc attr.2.toPair.1; listBlock acc attr.2.toPair.2)
      else pure acc :=
  Lists.ite (lists_lfsCtzTraverse _ _)
    (Lists.ite (Lists.bind (Lists.block _) (Lists.block _)) Lists.pure)

theorem lists_traverseEntry (dir : Mdir) (id : ℕ) :
    Lists (traverseEntry markBlock true dir () id)
      fun acc => traverseEntry listBlock true dir acc id := by
  intro lfs
  have hentry : ∀ (result : Except Error Attr) (middle : Lfs), Reads lfs middle →
      tryError (lfsDirGet dir ⟨0x700, true⟩ ⟨tyStruct, id, 8⟩) lfs.bare = .ok result lfs.bare →
      ∀ {scan : FsM Unit} {list : List Block → FsM (List Block)}, Lists scan list →
      (∀ acc, traverseEntry listBlock true dir acc id lfs.bare = list acc lfs.bare) →
      Outcome scan
        (fun _ lfs' => ∃ blocks, Met blocks lfs lfs' ∧
          ∀ acc, traverseEntry listBlock true dir acc id lfs.bare = .ok (acc ++ blocks) lfs.bare)
        (fun failure _ => Excused lfs failure (∀ acc, ∃ lfs'',
          traverseEntry listBlock true dir acc id lfs.bare = .error failure lfs'')) middle := by
    intro result middle hreads _ scan list hlists hrun
    simp only [hrun]
    exact hlists.resume (.of_reads hreads) fun acc => by rw [List.append_nil]; rfl
  rw [traverseEntry, outcome_bind, outcome_tryError]
  apply (bare_lfsDirGet dir ⟨0x700, true⟩ ⟨tyStruct, id, 8⟩ lfs).imp
  · intro attr middle hmiddle
    obtain ⟨hreads, hbare⟩ := hmiddle
    have hread : tryError (lfsDirGet dir ⟨0x700, true⟩ ⟨tyStruct, id, 8⟩) lfs.bare =
        .ok (.ok attr) lfs.bare := attempt_eq_ok_ok.mpr hbare
    exact hentry _ middle hreads hread (lists_struct attr) fun acc => bind_of_ok hread _
  · intro failure middle hmiddle
    obtain ⟨hreads, hexcused⟩ := hmiddle
    apply hexcused.elim
    · intro hio
      obtain ⟨rfl, hanswered⟩ := hio
      exact Or.inl ⟨rfl, hanswered⟩
    · intro hbare
      cases failure with
      | error e =>
          have hread : tryError (lfsDirGet dir ⟨0x700, true⟩ ⟨tyStruct, id, 8⟩) lfs.bare =
              .ok (.error e) lfs.bare := attempt_eq_ok_error.mpr ⟨_, hbare, rfl⟩
          cases e
          case noEntry =>
            exact hentry _ middle hreads hread Lists.pure fun acc => bind_of_ok hread _
          all_goals exact hentry _ middle hreads hread (Lists.throw _) fun acc => bind_of_ok hread _
      | panic reason => exact Or.inr fun _ => ⟨lfs.bare, bind_eq_error.mpr (Or.inl
          (tryError_of_fault hbare rfl))⟩
      | outOfFuel => exact Or.inr fun _ => ⟨lfs.bare, bind_eq_error.mpr (Or.inl
          (tryError_of_fault hbare rfl))⟩
      | badHandle => exact Or.inr fun _ => ⟨lfs.bare, bind_eq_error.mpr (Or.inl
          (tryError_of_fault hbare rfl))⟩

theorem lists_traverseFile (file : Handle) :
    Lists (traverseFile markBlock () file) fun acc => traverseFile listBlock acc file := by
  unfold traverseFile
  apply Lists.ite Lists.pure
  have hwriting : Lists (if file.flags.writing ∧ ¬file.flags.inline then
        lfsCtzTraverse markBlock file.block file.pos () else return ())
      fun acc => if file.flags.writing ∧ ¬file.flags.inline then
        lfsCtzTraverse listBlock file.block file.pos acc else return acc :=
    Lists.ite (lists_lfsCtzTraverse _ _) Lists.pure
  exact Lists.ite (Lists.bind (lists_lfsCtzTraverse _ _) hwriting) (Lists.bind Lists.pure hwriting)

theorem lists_traverseTails (fuel : ℕ) (tail : Pair) (tortoise : Tortoise) :
    Lists (traverseTails markBlock true fuel tail tortoise ())
      fun acc => traverseTails listBlock true fuel tail tortoise acc := by
  induction fuel generalizing tail tortoise with
  | zero => exact Lists.throw _
  | succ fuel ih =>
      simp only [traverseTails]
      apply Lists.ite Lists.pure
      cases lfsTortoiseDetectcycles tail tortoise with
      | none => exact Lists.throw _
      | some tortoise =>
          apply Lists.bind (Lists.block _)
          apply Lists.bind (Lists.block _)
          apply Lists.read_bind (bare_lfsDirFetch tail)
          intro dir
          exact Lists.bind (Lists.foldlM _ (lists_traverseEntry dir)) (ih _ _)

theorem lists_lfsFsTraverse :
    Lists (lfsFsTraverse markBlock true ()) fun acc => lfsFsTraverse listBlock true acc :=
  Lists.get_bind (fun _ => rfl) fun _ =>
    Lists.bind (lists_traverseTails _ _ _) (Lists.foldlM _ lists_traverseFile)

/-- A scan that succeeds has marked the blocks that a traversal reports. -/
theorem lfsFsTraverse_met (lfs : Lfs) :
    Outcome (lfsFsTraverse markBlock true ())
      (fun _ lfs' => ∃ blocks, reported lfs = some blocks ∧ Met blocks lfs lfs')
      (fun failure _ => Excused lfs failure
        (∃ lfs'', lfsFsTraverse listBlock true [] lfs.bare = .error failure lfs'')) lfs := by
  apply (lists_lfsFsTraverse lfs).imp
  · intro _ lfs' hlfs'
    obtain ⟨blocks, hmet, hlist⟩ := hlfs'
    have hrun : lfsFsTraverse listBlock true [] lfs.bare = .ok ([] ++ blocks) lfs.bare := hlist []
    refine ⟨blocks, ?_, hmet⟩
    rw [reported, hrun, List.nil_append]
  · exact fun _ _ h => Or.imp id (fun h => h []) h

/-! ## Bits and blocks -/

theorem offsetOf_congr {window window' : Lookahead} (hstart : window'.start = window.start)
    (blockCount : ℕ) (block : Block) :
    window'.offsetOf blockCount block = window.offsetOf blockCount block := by
  simp only [Lookahead.offsetOf, hstart]

theorem mark_shape (window : Lookahead) (blockCount : ℕ) (block : Block) :
    window.mark blockCount block =
      { window with buffer := (window.mark blockCount block).buffer } := by
  rw [Lookahead.mark]
  split <;> rfl

theorem markAll_shape (window : Lookahead) (blockCount : ℕ) (blocks : List Block) :
    window.markAll blockCount blocks =
      { window with buffer := (window.markAll blockCount blocks).buffer } := by
  induction blocks generalizing window with
  | nil => rw [markAll_nil]
  | cons block blocks ih => rw [markAll_cons, ih, mark_shape]

theorem mark_buffer (window : Lookahead) (blockCount : ℕ) (block : Block) (i : ℕ) :
    (window.mark blockCount block).buffer i = true ↔
      window.buffer i = true ∨ window.offsetOf blockCount block = i ∧ i < window.size := by
  rw [Lookahead.mark]
  generalize window.offsetOf blockCount block = off
  by_cases hsize : off < window.size
  · simp only [if_pos hsize, Function.update_apply]
    by_cases hi : i = off
    · subst hi
      simp only [if_pos, hsize, and_self, or_true]
    · simp only [if_neg hi, Ne.symm hi, false_and, or_false]
  · simp only [if_neg hsize]
    constructor
    · exact Or.inl
    · intro h
      apply h.elim id
      intro hbit
      rw [hbit.1] at hsize
      exact absurd hbit.2 hsize

/-- A bit is set when a block stands at its offset. -/
theorem markAll_buffer (window : Lookahead) (blockCount : ℕ) (blocks : List Block) (i : ℕ) :
    (window.markAll blockCount blocks).buffer i = true ↔
      window.buffer i = true ∨
        ∃ block ∈ blocks, window.offsetOf blockCount block = i ∧ i < window.size := by
  induction blocks generalizing window with
  | nil => simp
  | cons block blocks ih =>
      have hoffset : ∀ other, (window.mark blockCount block).offsetOf blockCount other =
          window.offsetOf blockCount other :=
        offsetOf_congr (by rw [mark_shape]) blockCount
      have hsize : (window.mark blockCount block).size = window.size := by rw [mark_shape]
      rw [markAll_cons, ih, mark_buffer]
      simp only [hoffset, hsize, List.mem_cons, exists_eq_or_imp, or_assoc]

namespace Met

variable {blocks : List Block} {lfs lfs' : Lfs}

theorem buffer (hmet : Met blocks lfs lfs') (i : ℕ) :
    lfs'.lookahead.buffer i = true ↔ lfs.lookahead.buffer i = true ∨
      ∃ block ∈ blocks, lfs.lookahead.offsetOf lfs.blockCount block = i ∧
        i < lfs.lookahead.size := by
  rw [hmet.eq]
  exact markAll_buffer _ _ _ _

theorem marks (hmet : Met blocks lfs lfs') : Marks lfs lfs' where
  eq := by
    rw [hmet.eq, markAll_shape]
  suffix := hmet.suffix
  mono i h := (hmet.buffer i).mpr (Or.inl h)

theorem marked (hmet : Met blocks lfs lfs') {block : Block} (hblock : block ∈ blocks) :
    lfs'.lookahead.Marked lfs'.blockCount block := by
  have hoffset : lfs'.lookahead.offsetOf lfs'.blockCount block =
      lfs.lookahead.offsetOf lfs.blockCount block := by
    rw [hmet.marks.blockCount]
    exact offsetOf_congr (by rw [hmet.marks.eq]) _ _
  have hsize : lfs'.lookahead.size = lfs.lookahead.size := by rw [hmet.marks.eq]
  unfold Lookahead.Marked
  rw [hoffset, hsize, hmet.buffer]
  exact fun h => Or.inr ⟨block, hblock, rfl, h⟩

end Met

/-- A traversal that ends with `Ok` reports every block of `used`. -/
def Reports (lfs : Lfs) (used : List Block) : Prop :=
  ∀ blocks, reported lfs = some blocks → used ⊆ blocks

theorem reported_congr {lfs lfs' : Lfs} (hbare : lfs'.bare = lfs.bare) :
    reported lfs' = reported lfs := by
  rw [reported, reported, hbare]

theorem Reports.scanCovers {lfs : Lfs} {used : List Block} (hreports : Reports lfs used) :
    ScanCovers used lfs := by
  intro lfs' hlfs'
  have hbare : lfs'.bare = lfs.bare := by rw [hlfs']; rfl
  apply Outcome.intro
  · intro _ lfs'' hrun
    obtain ⟨blocks, hblocks, hmet⟩ := (lfsFsTraverse_met lfs').of_ok hrun
    rw [reported_congr hbare] at hblocks
    exact ⟨hmet.marks, fun block hblock => hmet.marked (hreports blocks hblocks hblock)⟩
  · intro failure lfs'' hrun
    exact (scans_lfsFsTraverse scans_markBlock true () lfs').of_error hrun

/-- A traversal ends, with `Ok` or with an error. -/
def TraversalEnds (lfs : Lfs) : Prop :=
  ∀ lfs', lfsFsTraverse listBlock true [] lfs.bare ≠ .error .outOfFuel lfs'

theorem TraversalEnds.scan {lfs : Lfs} (hends : TraversalEnds lfs) {lfs' : Lfs}
    (hbare : lfs'.bare = lfs.bare) :
    Outcome (lfsFsTraverse markBlock true ()) (fun _ _ => True)
      (fun failure _ => failure ≠ .outOfFuel) lfs' := by
  apply (lfsFsTraverse_met lfs').imp fun _ _ _ => trivial
  intro failure _ h
  apply h.elim
  · intro hio
    rw [hio.1]
    exact fun h => by cases h
  · intro hrun hfailure
    obtain ⟨lfs'', hrun⟩ := hrun
    rw [hbare, hfailure] at hrun
    exact hends lfs'' hrun

theorem TraversalEnds.of_reported {lfs : Lfs} {blocks : List Block}
    (hreported : reported lfs = some blocks) : TraversalEnds lfs := by
  intro lfs' hrun
  rw [reported, hrun] at hreported
  cases hreported

/-- A scan that succeeds has a list of blocks to mark. -/
theorem lfsAllocScan_reported (lfs : Lfs) :
    Outcome lfsAllocScan (fun _ _ => ∃ blocks, reported lfs = some blocks) (fun _ _ => True)
      lfs := by
  rw [lfsAllocScan, outcome_bind, outcome_get, outcome_bind, setLookahead, outcome_modify,
    outcome_bind, outcome_tryError]
  have hmoved : reported { lfs with
      lookahead := lfs.lookahead.moved lfs.blockCount lfs.cfg.lookaheadSize } = reported lfs :=
    reported_congr rfl
  apply (lfsFsTraverse_met _).imp
  · intro _ _ h
    obtain ⟨blocks, hblocks, -⟩ := h
    exact ⟨blocks, hmoved ▸ hblocks⟩
  · intro failure _ _
    cases failure <;> trivial

/-- Where the traversal succeeds, a scan fails because of the device only. -/
theorem lfsAllocScan_met {lfs : Lfs} {blocks : List Block}
    (hreported : reported lfs = some blocks) :
    Outcome lfsAllocScan
      (fun _ lfs' => Met blocks { lfs with
        lookahead := lfs.lookahead.moved lfs.blockCount lfs.cfg.lookaheadSize } lfs')
      (fun failure _ => failure = .error .io ∧ ¬Answered lfs) lfs := by
  rw [lfsAllocScan, outcome_bind, outcome_get, outcome_bind, setLookahead, outcome_modify,
    outcome_bind, outcome_tryError]
  have hmoved : reported { lfs with
      lookahead := lfs.lookahead.moved lfs.blockCount lfs.cfg.lookaheadSize } = some blocks := by
    rw [← hreported]
    exact reported_congr rfl
  apply (lfsFsTraverse_met _).imp
  · intro _ lfs' h
    obtain ⟨blocks', hblocks', hmet⟩ := h
    rw [hmoved] at hblocks'
    cases hblocks'
    exact hmet
  · intro failure _ h
    apply h.elim
    · intro hio
      obtain ⟨rfl, hanswered⟩ := hio
      exact ⟨rfl, hanswered⟩
    · intro hrun
      obtain ⟨lfs'', hrun⟩ := hrun
      rw [reported, hrun] at hmoved
      cases hmoved

end Littlefs
