import Littlefs.Walk
import Littlefs.Window

/-!
# A scan marks what the tail list holds

`lfs_alloc_scan` hands every block that `lfs_fs_traverse_` visits to the
lookahead window.  Only marks change on the way, so a scan that succeeds has
marked the blocks of every pair on the list.
-/

namespace Littlefs

open Program Segments Lookahead

/-- Accesses to the device and new marks in the window. -/
structure Marks (lfs lfs' : Lfs) : Prop where
  eq : lfs' = { lfs with script := lfs'.script,
                         lookahead := { lfs.lookahead with buffer := lfs'.lookahead.buffer } }
  suffix : lfs'.script <:+ lfs.script
  mono : ∀ i, lfs.lookahead.buffer i = true → lfs'.lookahead.buffer i = true

namespace Marks

variable {lfs middle lfs' : Lfs}

theorem refl (lfs : Lfs) : Marks lfs lfs := ⟨rfl, List.suffix_rfl, fun _ h => h⟩

theorem trans (hleft : Marks lfs middle) (hright : Marks middle lfs') : Marks lfs lfs' where
  eq := by rw [hright.eq, hleft.eq]
  suffix := hright.suffix.trans hleft.suffix
  mono i h := hright.mono i (hleft.mono i h)

theorem of_reads (hreads : Reads lfs lfs') : Marks lfs lfs' where
  eq := by rw [hreads.eq]
  suffix := hreads.suffix
  mono i h := by rwa [hreads.eq]

theorem disk (hmarks : Marks lfs lfs') : lfs'.disk = lfs.disk := by rw [hmarks.eq]

theorem blockCount (hmarks : Marks lfs lfs') : lfs'.blockCount = lfs.blockCount := by
  rw [hmarks.eq]

/-- Marks stay. -/
theorem marked (hmarks : Marks lfs lfs') {block : Block}
    (hmarked : lfs.lookahead.Marked lfs.blockCount block) :
    lfs'.lookahead.Marked lfs'.blockCount block := by
  intro hlt
  have hmono := hmarks.mono
  rw [hmarks.eq] at hlt ⊢
  exact hmono _ (hmarked hlt)

end Marks

instance : Std.Refl Marks := ⟨Marks.refl⟩

instance : IsTrans Lfs Marks := ⟨fun _ _ _ => Marks.trans⟩

/-- Programs that may run inside a scan: whatever fails in them is not a lack
of space. -/
def Scans {α : Type} (program : FsM α) : Prop :=
  ∀ lfs, Outcome program (fun _ lfs' => Marks lfs lfs')
    (fun failure lfs' => Marks lfs lfs' ∧ failure ≠ .error .noSpace) lfs

namespace Scans

variable {α β : Type}

theorem pure (value : α) : Scans (Pure.pure value) := fun lfs => Marks.refl lfs

theorem failWith {e : Error} (he : e ≠ .noSpace) : Scans (Littlefs.failWith e : FsM α) :=
  fun lfs => ⟨Marks.refl lfs, fun h => he (by cases h; rfl)⟩

theorem outOfFuel : Scans (throw .outOfFuel : FsM α) := fun lfs => ⟨Marks.refl lfs, by simp⟩

/-- The rest of a scan, after some marks. -/
theorem resume {program : FsM α} (hprogram : Scans program) {lfs middle : Lfs}
    (hmarks : Marks lfs middle) :
    Outcome program (fun _ lfs' => Marks lfs lfs')
      (fun failure lfs' => Marks lfs lfs' ∧ failure ≠ .error .noSpace) middle :=
  (hprogram middle).imp (fun _ _ h => hmarks.trans h) fun _ _ h => ⟨hmarks.trans h.1, h.2⟩

theorem bind {program : FsM α} {next : α → FsM β} (hprogram : Scans program)
    (hnext : ∀ value, Scans (next value)) : Scans (program >>= next) := by
  intro lfs
  rw [outcome_bind]
  exact (hprogram lfs).imp (fun value _ h => (hnext value).resume h) fun _ _ h => h

theorem get_bind {next : Lfs → FsM α} (hnext : ∀ lfs, Scans (next lfs)) : Scans (get >>= next) :=
  fun lfs => hnext lfs lfs

theorem ite {condition : Prop} [Decidable condition] {program other : FsM α}
    (hyes : Scans program) (hno : Scans other) :
    Scans (if condition then program else other) := by
  split
  · exact hyes
  · exact hno

theorem foldlM {γ : Type} {step : α → γ → FsM α} (inputs : List γ)
    (hstep : ∀ value input, Scans (step value input)) (value : α) :
    Scans (inputs.foldlM step value) := by
  induction inputs generalizing value with
  | nil => exact pure value
  | cons input inputs ih =>
      rw [List.foldlM_cons]
      exact bind (hstep value input) ih

end Scans

theorem not_noSpace_of_readFails {lfs : Lfs} {block : Block} {failure : Fault}
    (hfails : ReadFails lfs block failure) : failure ≠ .error .noSpace := by
  rcases hfails with ⟨rfl, -⟩ | ⟨rfl, -⟩ <;> simp

theorem scans_readBlock (block : Block) : Scans (readBlock block) := fun lfs =>
  (outcome_readBlock block lfs).imp (fun _ _ h => .of_reads h.2.2) fun _ _ h =>
    ⟨.of_reads h.1, not_noSpace_of_readFails h.2⟩

theorem scans_lfsDirFetch (pair : Pair) : Scans (lfsDirFetch pair) := by
  refine Scans.bind (fun lfs => ?_) fun _ => Scans.pure _
  refine (outcome_lfsDirFetchmatch _ pair lfs).imp (fun _ _ h => .of_reads h.1) ?_
  rintro failure lfs' ⟨hreads, rfl | ⟨rfl, -⟩⟩ <;> exact ⟨.of_reads hreads, by simp⟩

theorem outcome_lfsAllocLookahead (block : Block) (lfs : Lfs) :
    Outcome (lfsAllocLookahead block)
      (fun _ lfs' => Marks lfs lfs' ∧ lfs'.lookahead.Marked lfs'.blockCount block)
      (fun _ _ => False) lfs := by
  rw [lfsAllocLookahead, outcome_modify]
  constructor
  · refine ⟨?_, List.suffix_rfl, ?_⟩
    · unfold Lookahead.mark
      dsimp only
      split <;> rfl
    · intro i hi
      unfold Lookahead.mark
      dsimp only
      split
      · simp [Function.update_apply, hi]
      · exact hi
  · unfold Lookahead.Marked Lookahead.mark
    dsimp only
    split
    · intro _
      simp [Lookahead.offsetOf]
    · rename_i hlt
      exact fun h => absurd h hlt

theorem scans_lfsAllocLookahead (block : Block) : Scans (lfsAllocLookahead block) := fun lfs =>
  (outcome_lfsAllocLookahead block lfs).imp (fun _ _ h => h.1) fun _ _ h => h.elim

/-! ## The traversal -/

/-- The callback of `lfs_alloc_scan`. -/
def markBlock (_ : Unit) (block : Block) : FsM Unit := lfsAllocLookahead block

section

variable {α : Type} {cb : α → Block → FsM α}

theorem scans_lfsCtzTraverseGo (hcb : ∀ acc block, Scans (cb acc block)) (fuel : ℕ)
    (head : Block) (index : ℕ) (acc : α) : Scans (lfsCtzTraverseGo cb fuel head index acc) := by
  induction fuel generalizing head index acc with
  | zero => exact Scans.outOfFuel
  | succ fuel ih =>
      rw [lfsCtzTraverseGo]
      refine Scans.bind (hcb acc head) fun acc => Scans.ite (Scans.pure _) ?_
      refine Scans.bind (scans_readBlock head) fun image => Scans.ite (ih _ _ _) ?_
      exact Scans.bind (hcb _ _) fun _ => ih _ _ _

theorem scans_lfsCtzTraverse (hcb : ∀ acc block, Scans (cb acc block)) (head : Block)
    (size : ℕ) (acc : α) : Scans (lfsCtzTraverse cb head size acc) :=
  Scans.ite (Scans.pure _) (Scans.get_bind fun _ => scans_lfsCtzTraverseGo hcb _ _ _ _)

theorem scans_traverseEntry (hcb : ∀ acc block, Scans (cb acc block)) (includeorphans : Bool)
    (dir : Mdir) (acc : α) (id : ℕ) : Scans (traverseEntry cb includeorphans dir acc id) := by
  intro lfs
  rw [traverseEntry, outcome_bind, tryError, outcome_attempt]
  refine (outcome_lfsDirGet _ _ _ lfs).imp ?_ ?_
  · rintro ⟨tag, data⟩ lfs' ⟨-, hreads⟩
    refine Scans.resume ?_ (.of_reads hreads)
    refine Scans.ite (scans_lfsCtzTraverse hcb _ _ _) (Scans.ite ?_ (Scans.pure _))
    exact Scans.bind (hcb _ _) fun _ => hcb _ _
  · rintro failure lfs' ⟨hreads, ⟨rfl, -⟩ | ⟨rfl, -⟩ | ⟨rfl, -⟩⟩
    · exact Marks.of_reads hreads
    · exact ⟨.of_reads hreads, by simp⟩
    · exact ⟨.of_reads hreads, by simp⟩

theorem scans_traverseFile (hcb : ∀ acc block, Scans (cb acc block)) (acc : α) (file : Handle) :
    Scans (traverseFile cb acc file) := by
  refine Scans.ite (Scans.pure _) ?_
  have hwriting : ∀ acc, Scans (if file.flags.writing ∧ ¬file.flags.inline then
      lfsCtzTraverse cb file.block file.pos acc else return acc) := fun acc =>
    Scans.ite (scans_lfsCtzTraverse hcb _ _ _) (Scans.pure _)
  exact Scans.ite (Scans.bind (scans_lfsCtzTraverse hcb _ _ _) hwriting)
    (Scans.bind (Scans.pure _) hwriting)

theorem scans_traverseTails (hcb : ∀ acc block, Scans (cb acc block)) (includeorphans : Bool)
    (fuel : ℕ) (tail : Pair) (tortoise : Tortoise) (acc : α) :
    Scans (traverseTails cb includeorphans fuel tail tortoise acc) := by
  induction fuel generalizing tail tortoise acc with
  | zero => exact Scans.outOfFuel
  | succ fuel ih =>
      rw [traverseTails]
      refine Scans.ite (Scans.pure _) ?_
      cases lfsTortoiseDetectcycles tail tortoise with
      | none => exact Scans.failWith (by decide)
      | some tortoise =>
          refine Scans.bind (hcb _ _) fun _ => Scans.bind (hcb _ _) fun _ =>
            Scans.bind (scans_lfsDirFetch tail) fun dir => ?_
          exact Scans.bind
            (Scans.foldlM _ (scans_traverseEntry hcb includeorphans dir) _) fun _ => ih _ _ _

theorem scans_lfsFsTraverse (hcb : ∀ acc block, Scans (cb acc block)) (includeorphans : Bool)
    (acc : α) : Scans (lfsFsTraverse cb includeorphans acc) :=
  Scans.get_bind fun _ => Scans.bind (scans_traverseTails hcb _ _ _ _ _) fun _ =>
    Scans.foldlM _ (scans_traverseFile hcb) _

end

theorem scans_lfsFsSize : Scans lfsFsSize :=
  scans_lfsFsTraverse (fun _ _ => Scans.pure _) false 0

theorem scans_markBlock (acc : Unit) (block : Block) : Scans (markBlock acc block) :=
  scans_lfsAllocLookahead block

/-- The state of a scan that has marked `blocks`. -/
def MarkedAll (blocks : List Block) (lfs lfs' : Lfs) : Prop :=
  Marks lfs lfs' ∧ ∀ block ∈ blocks, lfs'.lookahead.Marked lfs'.blockCount block

theorem MarkedAll.marks {blocks : List Block} {lfs lfs' lfs'' : Lfs}
    (hmarked : MarkedAll blocks lfs lfs') (hmarks : Marks lfs' lfs'') :
    MarkedAll blocks lfs lfs'' :=
  ⟨hmarked.1.trans hmarks, fun block hblock => hmarks.marked (hmarked.2 block hblock)⟩

/-- A fetch of a pair that is on the list. -/
theorem outcome_lfsDirFetch {lfs : Lfs} {pair : Pair} {dir : Mdir}
    (hview : viewAt lfs.disk pair = some dir) :
    Outcome (lfsDirFetch pair)
      (fun dir' lfs' => { dir' with erased := false } = dir ∧ Reads lfs lfs')
      (fun failure lfs' => Reads lfs lfs' ∧
        (failure = .error .corrupt ∨ failure = .error .io ∧ ¬Answered lfs)) lfs := by
  rw [lfsDirFetch, outcome_bind]
  refine (outcome_lfsDirFetchmatch _ pair lfs).imp ?_ fun _ _ h => h
  rintro fetched lfs' ⟨hreads, hfetched⟩
  obtain ⟨-, found, hlocate, hdir⟩ := fetchmatch_ok hfetched
  obtain ⟨-, hlocate', hdir'⟩ := viewAt_eq_some.mp hview
  rw [hlocate] at hlocate'
  have hpair := Option.some.inj hlocate'
  refine ⟨?_, hreads⟩
  rw [hdir', hdir, ← hpair]
  rfl

/-- The walk of a scan marks both blocks of every pair it passes. -/
theorem traverseTails_marks {disk : Block → BlockImage} {dirs : List Mdir} {stop : Pair}
    (hstop : lfsPairIsnull stop = true) (fuel : ℕ) (tail : Pair) (tortoise : Tortoise) (lfs : Lfs)
    (hdisk : lfs.disk = disk) (hwalk : Walk disk tail dirs stop) :
    Outcome (traverseTails markBlock true fuel tail tortoise ())
      (fun _ lfs' => MarkedAll (blocksOf dirs) lfs lfs')
      (fun failure lfs' => Marks lfs lfs' ∧ failure ≠ .error .noSpace) lfs := by
  induction fuel generalizing tail tortoise lfs dirs with
  | zero => exact ⟨Marks.refl lfs, by simp⟩
  | succ fuel ih =>
      rw [traverseTails]
      cases hwalk with
      | nil => rw [if_pos hstop]; exact ⟨Marks.refl lfs, by simp [blocksOf]⟩
      | @cons _ _ dir dirs hview hrest =>
          obtain ⟨hnull, -, -⟩ := viewAt_eq_some.mp hview
          rw [if_neg (by simp [hnull])]
          cases lfsTortoiseDetectcycles tail tortoise with
          | none => exact ⟨Marks.refl lfs, by simp⟩
          | some tortoise =>
              dsimp only
              rw [outcome_bind]
              refine (outcome_lfsAllocLookahead tail.1 lfs).imp ?_ fun _ _ h => h.elim
              rintro - lfs1 ⟨hmarks1, hfst⟩
              rw [outcome_bind]
              refine (outcome_lfsAllocLookahead tail.2 lfs1).imp ?_ fun _ _ h => h.elim
              rintro - lfs2 ⟨hmarks2, hsnd⟩
              have hpair : MarkedAll dir.blocks lfs lfs2 := by
                refine ⟨hmarks1.trans hmarks2, ?_⟩
                have hfst := hmarks2.marked hfst
                rcases viewAt_pair hview with heq | heq <;> simp [Mdir.blocks, heq, hfst, hsnd]
              have hview2 : viewAt lfs2.disk tail = some dir := by
                rw [hpair.1.disk, hdisk]
                exact hview
              rw [outcome_bind]
              refine (outcome_lfsDirFetch hview2).imp ?_ ?_
              · rintro dir' lfs3 ⟨hdir, hreads⟩
                have hpair3 := hpair.marks (.of_reads hreads)
                rw [outcome_bind]
                refine ((Scans.foldlM (List.range dir'.count)
                  (scans_traverseEntry scans_markBlock true dir') ()).resume
                      (Marks.refl lfs3)).imp ?_
                  fun _ _ h => ⟨hpair3.1.trans h.1, h.2⟩
                intro acc lfs4 hmarks4
                have hpair4 := hpair3.marks hmarks4
                have htail : dir'.tail = dir.tail := by rw [← hdir]
                rw [htail]
                refine (ih dir.tail tortoise lfs4 (hpair4.1.disk.trans hdisk) hrest).imp ?_
                  fun _ _ h => ⟨hpair4.1.trans h.1, h.2⟩
                rintro - lfs5 ⟨hmarks5, hmarked5⟩
                have hpair5 := hpair4.marks hmarks5
                refine ⟨hpair5.1, fun block hblock => ?_⟩
                rw [blocksOf, List.flatMap_cons, List.mem_append] at hblock
                exact hblock.elim (hpair5.2 block) (hmarked5 block)
              · rintro failure lfs3 ⟨hreads, rfl | ⟨rfl, -⟩⟩ <;>
                exact ⟨hpair.1.trans (.of_reads hreads), by simp⟩

/-- Whatever scripts and windows come, a scan that succeeds marks `used`. -/
def ScanCovers (used : List Block) (lfs : Lfs) : Prop :=
  ∀ lfs', lfs' = { lfs with script := lfs'.script, lookahead := lfs'.lookahead } →
    Outcome (lfsFsTraverse markBlock true ()) (fun _ lfs'' => MarkedAll used lfs' lfs'')
      (fun failure lfs'' => Marks lfs' lfs'' ∧ failure ≠ .error .noSpace) lfs'

theorem Chain.scanCovers {lfs : Lfs} {dirs : List Mdir} (hchain : Chain lfs.disk dirs) :
    ScanCovers (blocksOf dirs) lfs := by
  obtain ⟨stop, hstop, hwalk⟩ := hchain
  intro lfs' hlfs'
  have hdisk : lfs'.disk = lfs.disk := by rw [hlfs']
  rw [lfsFsTraverse, outcome_bind, outcome_get, outcome_bind]
  refine (traverseTails_marks hstop _ _ _ lfs' hdisk hwalk).imp ?_ fun _ _ h => h
  intro acc lfs1 hmarked
  refine ((Scans.foldlM lfs'.mlist (scans_traverseFile scans_markBlock) acc).resume
    (Marks.refl lfs1)).imp ?_
    fun _ _ h => ⟨hmarked.1.trans h.1, h.2⟩
  exact fun _ lfs2 hmarks => hmarked.marks hmarks

end Littlefs
