import Littlefs.InUse

/-!
# A traversal reads what it reports

`lfs_fs_traverse_` hands a block to its callback before it looks into it.  So the list it
reports stays the same whatever is written to other blocks, and the allocator may hand
out a block, have it written and scan again.
-/

namespace Littlefs

open Program

/-- The filesystem with another content of its blocks. -/
def Lfs.withDisk (lfs : Lfs) (disk : Block → BlockImage) : Lfs := { lfs with disk := disk }

/-- The blocks in `blocks` have one content on both disks. -/
def AgreeOn (blocks : List Block) (disk disk' : Block → BlockImage) : Prop :=
  ∀ block ∈ blocks, disk' block = disk block

theorem AgreeOn.mono {blocks more : List Block} {disk disk' : Block → BlockImage}
    (hagree : AgreeOn more disk disk') (hsub : blocks ⊆ more) : AgreeOn blocks disk disk' :=
  fun block hblock => hagree block (hsub hblock)

/-! ## Programs that read some blocks -/

/-- On a device that answers, the outcome of `program` depends on `blocks` only. -/
def ReadsOnly {α : Type} (blocks : List Block) (program : FsM α) : Prop :=
  ∀ lfs disk, lfs.script = [] → AgreeOn blocks lfs.disk disk →
    Outcome program
      (fun value lfs' => lfs' = lfs ∧ program (lfs.withDisk disk) = .ok value (lfs.withDisk disk))
      (fun failure lfs' => lfs' = lfs ∧
        program (lfs.withDisk disk) = .error failure (lfs.withDisk disk)) lfs

namespace ReadsOnly

variable {α β : Type} {blocks : List Block}

theorem pure (value : α) : ReadsOnly blocks (Pure.pure value) := fun _ _ _ _ => ⟨rfl, rfl⟩

theorem throw (fault : Fault) : ReadsOnly blocks (throw fault : FsM α) := fun _ _ _ _ => ⟨rfl, rfl⟩

theorem bind {program : FsM α} {next : α → FsM β} (hprogram : ReadsOnly blocks program)
    (hnext : ∀ value, ReadsOnly blocks (next value)) : ReadsOnly blocks (program >>= next) := by
  intro lfs disk hscript hagree
  rw [outcome_bind]
  apply (hprogram lfs disk hscript hagree).imp
  · intro value middle h
    obtain ⟨rfl, hrun⟩ := h
    rw [bind_of_ok hrun]
    exact hnext value middle disk hscript hagree
  · exact fun _ _ h => ⟨h.1, bind_eq_error.mpr (Or.inl h.2)⟩

theorem ite {condition : Prop} [Decidable condition] {program other : FsM α}
    (hyes : ReadsOnly blocks program) (hno : ReadsOnly blocks other) :
    ReadsOnly blocks (if condition then program else other) := by
  split
  · exact hyes
  · exact hno

/-- Programs that ask for the filesystem, and use the same of it on both disks. -/
theorem get_bind {next : Lfs → FsM α}
    (hsame : ∀ lfs disk, AgreeOn blocks lfs.disk disk → next (lfs.withDisk disk) = next lfs)
    (hnext : ∀ lfs, ReadsOnly blocks (next lfs)) : ReadsOnly blocks (get >>= next) := by
  intro lfs disk hscript hagree
  have hrun : (get >>= next) (lfs.withDisk disk) = next lfs (lfs.withDisk disk) := by
    rw [← hsame lfs disk hagree]
    rfl
  rw [outcome_bind, outcome_get, hrun]
  exact hnext lfs lfs disk hscript hagree

theorem liftExcept (value : Except Error α) : ReadsOnly blocks (Littlefs.liftExcept value) := by
  cases value with
  | ok value => exact pure value
  | error e => exact throw _

theorem tryError {program : FsM α} (hprogram : ReadsOnly blocks program) :
    ReadsOnly blocks (Littlefs.tryError program) := by
  intro lfs disk hscript hagree
  apply (hprogram lfs disk hscript hagree).tryError
  · exact fun value lfs' h => ⟨h.1, attempt_eq_ok_ok.mpr h.2⟩
  · exact fun e lfs' h => ⟨h.1, attempt_eq_ok_error.mpr ⟨_, h.2, rfl⟩⟩
  · intro fault lfs' hfault h
    refine ⟨h.1, tryError_of_fault h.2 ?_⟩
    cases fault with
    | error e => exact absurd rfl (hfault e)
    | panic reason => rfl
    | outOfFuel => rfl
    | badHandle => rfl

end ReadsOnly

variable {blocks acc : List Block} {block : Block}

theorem readBlock_run {lfs : Lfs} (hscript : lfs.script = []) :
    readBlock block lfs =
      if lfs.blockCount ≠ 0 ∧ lfs.blockCount ≤ block then .error (.error .corrupt) lfs
      else .ok (lfs.disk block) lfs := by
  obtain ⟨disk, eraseBad, progBad, script⟩ := lfs
  subst hscript
  rw [readBlock]
  split_ifs with hrange
  · rw [bind_of_ok (show (get : FsM Lfs) _ = .ok _ _ from rfl)]
    rw [if_pos hrange]
    rfl
  · rw [bind_of_ok (show (get : FsM Lfs) _ = .ok _ _ from rfl)]
    rw [if_neg hrange]
    rfl

theorem readsOnly_readBlock : ReadsOnly [block] (readBlock block) := by
  intro lfs disk hscript hagree
  have hsame : disk block = lfs.disk block := hagree block List.mem_cons_self
  have hother : readBlock block (lfs.withDisk disk) =
      if lfs.blockCount ≠ 0 ∧ lfs.blockCount ≤ block then
        .error (.error .corrupt) (lfs.withDisk disk)
      else .ok (disk block) (lfs.withDisk disk) := readBlock_run hscript
  unfold Outcome
  rw [readBlock_run hscript, hother, hsame]
  split
  · rename_i h
    split_ifs at h with hrange
    cases h
    exact ⟨rfl, by rw [if_neg hrange]⟩
  · rename_i h
    split_ifs at h with hrange
    cases h
    exact ⟨rfl, by rw [if_pos hrange]⟩

theorem fetchmatch_agree {disk disk' : Block → BlockImage} {blockCount : ℕ} {gdisk : Gstate}
    {cb : Attr → Option Ordering} {pair : Pair} (hagree : AgreeOn [pair.1, pair.2] disk disk') :
    fetchmatch disk' blockCount gdisk cb pair = fetchmatch disk blockCount gdisk cb pair := by
  have hfst : disk' pair.1 = disk pair.1 := hagree _ List.mem_cons_self
  have hsnd : disk' pair.2 = disk pair.2 := hagree _ (List.mem_cons_of_mem _ List.mem_cons_self)
  have hlocate : locate disk' pair = locate disk pair :=
    locate_congr (by rw [hfst]; exact SameLog.refl _) (by rw [hsnd]; exact SameLog.refl _)
  rw [fetchmatch, fetchmatch, hlocate]
  cases hfound : locate disk pair with
  | none => rfl
  | some found =>
      have hcurrent : disk' found.1 = disk found.1 := by
        apply (locate_eq_or_swap hfound).elim
        · rintro rfl
          exact hfst
        · rintro rfl
          exact hsnd
      simp only [mdirOf, hcurrent]

theorem readsOnly_lfsDirFetch (pair : Pair) : ReadsOnly [pair.1, pair.2] (lfsDirFetch pair) := by
  have hread : ReadsOnly [pair.1, pair.2] (readBlock pair.1) := fun lfs disk hscript hagree =>
    readsOnly_readBlock lfs disk hscript (hagree.mono (by simp))
  apply ReadsOnly.bind
  · unfold lfsDirFetchmatch
    apply ReadsOnly.get_bind
    · intro lfs disk hagree
      simp only [Lfs.withDisk, fetchmatch_agree hagree]
    · intro lfs
      apply ReadsOnly.ite
      · exact ReadsOnly.bind (ReadsOnly.throw _) fun _ =>
          ReadsOnly.bind hread fun _ => ReadsOnly.liftExcept _
      · exact ReadsOnly.bind hread fun _ => ReadsOnly.liftExcept _
  · exact fun _ => ReadsOnly.pure _

theorem readsOnly_lfsDirGet (dir : Mdir) (gmask : Mask) (gtag : Tag) :
    ReadsOnly [dir.pair.1] (lfsDirGet dir gmask gtag) := by
  apply ReadsOnly.bind
  · exact ReadsOnly.ite (ReadsOnly.pure _)
      (ReadsOnly.bind readsOnly_readBlock fun _ => ReadsOnly.pure _)
  · intro log
    apply ReadsOnly.get_bind
    · exact fun _ _ _ => rfl
    · intro lfs
      cases getslice lfs.gdisk dir log gmask gtag with
      | none => exact ReadsOnly.throw _
      | some attr => exact ReadsOnly.pure _

/-- A fetched pair has one of the two blocks in front. -/
theorem lfsDirFetch_front {lfs lfs' : Lfs} {pair : Pair} {dir : Mdir}
    (hrun : lfsDirFetch pair lfs = .ok dir lfs') : dir.pair.1 = pair.1 ∨ dir.pair.1 = pair.2 := by
  obtain ⟨fetched, middle, hfetch, hdir⟩ := bind_eq_ok.mp hrun
  obtain ⟨-, hfetched⟩ := (outcome_lfsDirFetchmatch _ pair lfs).of_ok hfetch
  obtain ⟨-, found, hfound, hfetched_dir⟩ := fetchmatch_ok hfetched
  have hpair : dir.pair = found := by
    rw [← (pure_eq_ok.mp hdir).1, hfetched_dir]
    rfl
  rw [hpair]
  exact (locate_eq_or_swap hfound).imp (congrArg Prod.fst) (congrArg Prod.fst)

/-! ## Walks that list blocks -/

/-- With the blocks `acc` listed so far, `walk` reads no block that it has not listed. -/
def ReadsListed (acc : List Block) (walk : FsM (List Block)) : Prop :=
  ∀ lfs, lfs.script = [] → Outcome walk
    (fun acc' lfs' => lfs' = lfs ∧ acc ⊆ acc' ∧ ∀ disk, AgreeOn acc' lfs.disk disk →
      walk (lfs.withDisk disk) = .ok acc' (lfs.withDisk disk))
    (fun _ _ => True) lfs

namespace ReadsListed

variable {walk : FsM (List Block)} {next : List Block → FsM (List Block)}

theorem pure (acc : List Block) : ReadsListed acc (Pure.pure acc) :=
  fun _ _ => ⟨rfl, List.Subset.refl _, fun _ _ => rfl⟩

theorem throw (fault : Fault) : ReadsListed acc (throw fault) := fun _ _ => trivial

theorem bind (hwalk : ReadsListed acc walk)
    (hnext : ∀ acc', acc ⊆ acc' → ReadsListed acc' (next acc')) :
    ReadsListed acc (walk >>= next) := by
  intro lfs hscript
  rw [outcome_bind]
  apply (hwalk lfs hscript).imp
  · intro acc' middle h
    obtain ⟨rfl, hsub, hrun⟩ := h
    apply (hnext acc' hsub middle hscript).imp
    · intro acc'' lfs' h'
      obtain ⟨hlfs', hsub', hrun'⟩ := h'
      refine ⟨hlfs', List.Subset.trans hsub hsub', ?_⟩
      intro disk hagree
      rw [bind_of_ok (hrun disk (hagree.mono hsub'))]
      exact hrun' disk hagree
    · exact fun _ _ _ => trivial
  · exact fun _ _ _ => trivial

/-- A block is listed. -/
theorem list (hnext : ReadsListed (acc ++ [block]) (next (acc ++ [block]))) :
    ReadsListed acc (listBlock acc block >>= next) := by
  intro lfs hscript
  apply (hnext lfs hscript).imp
  · intro acc' lfs' h
    exact ⟨h.1, List.Subset.trans (List.subset_append_left _ _) h.2.1, h.2.2⟩
  · exact fun _ _ _ => trivial

/-- Listed blocks are read. -/
theorem read_bind {α : Type} {program : FsM α} {next : α → FsM (List Block)} {blocks : List Block}
    (hprogram : ReadsOnly blocks program) (hblocks : blocks ⊆ acc)
    (hnext : ∀ lfs value lfs', program lfs = .ok value lfs' → ReadsListed acc (next value)) :
    ReadsListed acc (program >>= next) := by
  intro lfs hscript
  rw [outcome_bind]
  cases hrun : program lfs with
  | error failure lfs' =>
      unfold Outcome
      rw [hrun]
      trivial
  | ok value middle =>
      have hsteady := fun disk hagree => (hprogram lfs disk hscript hagree).of_ok hrun
      obtain ⟨rfl, -⟩ := hsteady lfs.disk fun _ _ => rfl
      unfold Outcome
      rw [hrun]
      apply (hnext middle value middle hrun middle hscript).imp
      · intro acc' lfs' h
        refine ⟨h.1, h.2.1, ?_⟩
        intro disk hagree
        rw [bind_of_ok (hsteady disk (hagree.mono (List.Subset.trans hblocks h.2.1))).2]
        exact h.2.2 disk hagree
      · exact fun _ _ _ => trivial

theorem get_bind {next : Lfs → FsM (List Block)}
    (hsame : ∀ lfs disk, next (lfs.withDisk disk) = next lfs)
    (hnext : ∀ lfs, ReadsListed acc (next lfs)) : ReadsListed acc (get >>= next) := by
  intro lfs hscript
  have hrun : ∀ disk, (get >>= next) (lfs.withDisk disk) = next lfs (lfs.withDisk disk) := by
    intro disk
    rw [← hsame lfs disk]
    rfl
  rw [outcome_bind, outcome_get]
  simp only [hrun]
  exact hnext lfs lfs hscript

theorem ite {condition : Prop} [Decidable condition] {walk other : FsM (List Block)}
    (hyes : ReadsListed acc walk) (hno : ReadsListed acc other) :
    ReadsListed acc (if condition then walk else other) := by
  split
  · exact hyes
  · exact hno

theorem foldlM {γ : Type} {step : List Block → γ → FsM (List Block)} (inputs : List γ)
    (acc : List Block) (hstep : ∀ acc' input, acc ⊆ acc' → ReadsListed acc' (step acc' input)) :
    ReadsListed acc (inputs.foldlM step acc) := by
  induction inputs generalizing acc with
  | nil => exact pure acc
  | cons input rest ih =>
      rw [List.foldlM_cons]
      apply bind (hstep acc input (List.Subset.refl _))
      exact fun acc' hsub => ih acc' fun acc'' input hsub' => hstep acc'' input
        (List.Subset.trans hsub hsub')

end ReadsListed

theorem readsListed_lfsCtzTraverseGo (fuel : ℕ) (head : Block) (index : ℕ) (acc : List Block) :
    ReadsListed acc (lfsCtzTraverseGo listBlock fuel head index acc) := by
  induction fuel generalizing head index acc with
  | zero => exact ReadsListed.throw _
  | succ fuel ih =>
      rw [lfsCtzTraverseGo]
      apply ReadsListed.list
      apply ReadsListed.ite (ReadsListed.pure _)
      apply ReadsListed.read_bind readsOnly_readBlock (by simp)
      intro _ image _ _
      apply ReadsListed.ite (ih _ _ _)
      exact ReadsListed.list (ih _ _ _)

theorem readsListed_lfsCtzTraverse (head : Block) (size : ℕ) (acc : List Block) :
    ReadsListed acc (lfsCtzTraverse listBlock head size acc) := by
  apply ReadsListed.ite (ReadsListed.pure _)
  exact ReadsListed.get_bind (fun _ _ => rfl) fun _ => readsListed_lfsCtzTraverseGo _ _ _ _

theorem readsListed_traverseEntry {dir : Mdir} {acc : List Block} (hfront : dir.pair.1 ∈ acc)
    (id : ℕ) : ReadsListed acc (traverseEntry listBlock true dir acc id) := by
  apply ReadsListed.read_bind (readsOnly_lfsDirGet dir _ _).tryError (by simpa using hfront)
  intro _ result _ _
  cases result with
  | error e =>
      cases e
      case noEntry => exact ReadsListed.pure _
      all_goals exact ReadsListed.throw _
  | ok attr =>
      apply ReadsListed.ite (readsListed_lfsCtzTraverse _ _ _)
      apply ReadsListed.ite _ (ReadsListed.pure _)
      exact ReadsListed.list (ReadsListed.list (ReadsListed.pure _))

theorem readsListed_traverseTails (fuel : ℕ) (tail : Pair) (tortoise : Tortoise)
    (acc : List Block) : ReadsListed acc (traverseTails listBlock true fuel tail tortoise acc) := by
  induction fuel generalizing tail tortoise acc with
  | zero => exact ReadsListed.throw _
  | succ fuel ih =>
      rw [traverseTails]
      apply ReadsListed.ite (ReadsListed.pure _)
      cases lfsTortoiseDetectcycles tail tortoise with
      | none => exact ReadsListed.throw _
      | some moved =>
          apply ReadsListed.list
          apply ReadsListed.list
          apply ReadsListed.read_bind (readsOnly_lfsDirFetch tail) (by simp)
          intro _ dir _ hrun
          have hfront : dir.pair.1 ∈ acc ++ [tail.1] ++ [tail.2] := by
            apply (lfsDirFetch_front hrun).elim <;> (intro h; simp [h])
          apply ReadsListed.bind
          · apply ReadsListed.foldlM
            exact fun acc' id hsub => readsListed_traverseEntry (hsub hfront) id
          · exact fun acc' _ => ih _ _ _

theorem readsListed_traverseFile (acc : List Block) (file : Handle) :
    ReadsListed acc (traverseFile listBlock acc file) := by
  have hwriting : ∀ acc, ReadsListed acc (if file.flags.writing ∧ ¬file.flags.inline then
      lfsCtzTraverse listBlock file.block file.pos acc else return acc) :=
    fun acc => ReadsListed.ite (readsListed_lfsCtzTraverse _ _ _) (ReadsListed.pure _)
  apply ReadsListed.ite (ReadsListed.pure _)
  apply ReadsListed.ite
  · exact ReadsListed.bind (readsListed_lfsCtzTraverse _ _ _) fun acc _ => hwriting acc
  · exact ReadsListed.bind (ReadsListed.pure _) fun acc _ => hwriting acc

theorem readsListed_lfsFsTraverse (acc : List Block) :
    ReadsListed acc (lfsFsTraverse listBlock true acc) := by
  apply ReadsListed.get_bind (fun _ _ => rfl)
  intro lfs
  apply ReadsListed.bind (readsListed_traverseTails _ _ _ _)
  intro acc' _
  exact ReadsListed.foldlM _ _ fun acc'' file _ => readsListed_traverseFile acc'' file

/-- Writing to blocks that are not reported changes no report. -/
theorem reported_withDisk {lfs : Lfs} {used : List Block} (hreported : reported lfs = some used)
    {disk : Block → BlockImage} (hagree : AgreeOn used lfs.disk disk) :
    reported (lfs.withDisk disk) = some used := by
  rw [reported] at hreported
  cases hrun : lfsFsTraverse listBlock true [] lfs.bare with
  | error failure lfs' =>
      rw [hrun] at hreported
      cases hreported
  | ok blocks lfs' =>
      rw [hrun] at hreported
      obtain rfl : blocks = used := Option.some.inj hreported
      obtain ⟨-, -, hother⟩ := (readsListed_lfsFsTraverse [] lfs.bare rfl).of_ok hrun
      have hbare : (lfs.withDisk disk).bare = lfs.bare.withDisk disk := rfl
      rw [reported, hbare, hother disk hagree]

end Littlefs
