import Littlefs.Lib.Commuting
import Littlefs.FileOps
import Littlefs.TraversalReads

/-!
# What an open file adds to the blocks in use

A traversal comes to the open files last.  What it reports is what it reports with no file
open, and then the blocks that each file has not committed, whatever the others are.
-/

namespace Littlefs

open Program

/-- The filesystem with other open handles. -/
def Lfs.withMlist (lfs : Lfs) (mlist : List Handle) : Lfs := { lfs with mlist := mlist }

/-- The open handles make no difference to `program`. -/
def IgnoresHandles {α : Type} (program : FsM α) : Prop :=
  ∀ mlist, Commutes (fun lfs : Lfs => lfs.withMlist mlist) program

namespace IgnoresHandles

variable {α β : Type} {program other : FsM α}

theorem pure (value : α) : IgnoresHandles (Pure.pure value) := fun _ => Commutes.pure value

theorem failWith (e : Error) : IgnoresHandles (Littlefs.failWith e : FsM α) :=
  fun _ => Commutes.throw (Fault.error e)

theorem throw (fault : Fault) : IgnoresHandles (MonadExcept.throw fault : FsM α) :=
  fun _ => Commutes.throw fault

theorem bind {next : α → FsM β} (hprogram : IgnoresHandles program)
    (hnext : ∀ value, IgnoresHandles (next value)) : IgnoresHandles (program >>= next) :=
  fun mlist => (hprogram mlist).bind fun value => hnext value mlist

theorem get_bind {next : Lfs → FsM α} (hsame : ∀ lfs mlist, next (lfs.withMlist mlist) = next lfs)
    (hnext : ∀ lfs, IgnoresHandles (next lfs)) : IgnoresHandles (get >>= next) :=
  fun mlist => Commutes.get_bind (fun lfs => hsame lfs mlist) fun lfs => hnext lfs mlist

theorem ite {condition : Prop} [Decidable condition] (hyes : IgnoresHandles program)
    (hno : IgnoresHandles other) : IgnoresHandles (if condition then program else other) :=
  fun mlist => (hyes mlist).ite (hno mlist)

theorem tryError (hprogram : IgnoresHandles program) :
    IgnoresHandles (Littlefs.tryError program) := fun mlist => (hprogram mlist).attempt

theorem foldlM {γ : Type} {step : α → γ → FsM α} (inputs : List γ)
    (hstep : ∀ value input, IgnoresHandles (step value input)) (value : α) :
    IgnoresHandles (inputs.foldlM step value) :=
  fun mlist => Commutes.foldlM inputs (fun value input => hstep value input mlist) value

theorem liftExcept (value : Except Error α) : IgnoresHandles (Littlefs.liftExcept value) := by
  cases value with
  | ok value => exact pure value
  | error e => exact failWith e

end IgnoresHandles

theorem ignoresHandles_nextEvent : IgnoresHandles nextEvent := by
  intro mlist lfs
  obtain ⟨disk, eraseBad, progBad, script⟩ := lfs
  cases script <;> rfl

theorem ignoresHandles_readBlock (block : Block) : IgnoresHandles (readBlock block) := by
  apply IgnoresHandles.get_bind (fun _ _ => rfl)
  intro lfs
  refine IgnoresHandles.ite ((IgnoresHandles.failWith _).bind fun _ => ?_) ?_
  all_goals
    apply ignoresHandles_nextEvent.bind
    intro event
    cases event with
    | ok => exact IgnoresHandles.pure _
    | failed => exact IgnoresHandles.failWith _
    | failedAfter => exact IgnoresHandles.failWith _

theorem ignoresHandles_lfsDirFetch (pair : Pair) : IgnoresHandles (lfsDirFetch pair) := by
  apply IgnoresHandles.bind _ fun fetched => IgnoresHandles.pure _
  apply IgnoresHandles.get_bind (fun _ _ => rfl)
  intro lfs
  have hread := (ignoresHandles_readBlock pair.1).bind fun _ => IgnoresHandles.liftExcept
    (fetchmatch lfs.disk lfs.blockCount lfs.gdisk (fun _ => none) pair)
  apply IgnoresHandles.ite _ hread
  exact (IgnoresHandles.failWith _).bind fun _ => hread

theorem ignoresHandles_lfsDirGet (dir : Mdir) (gmask : Mask) (gtag : Tag) :
    IgnoresHandles (lfsDirGet dir gmask gtag) := by
  have hlog : IgnoresHandles (readLog dir) := by
    apply IgnoresHandles.ite (IgnoresHandles.pure _)
    exact (ignoresHandles_readBlock _).bind fun _ => IgnoresHandles.pure _
  apply hlog.bind
  intro log
  apply IgnoresHandles.get_bind (fun _ _ => rfl)
  intro lfs
  cases getslice lfs.gdisk dir log gmask gtag with
  | none => exact IgnoresHandles.failWith _
  | some attr => exact IgnoresHandles.pure _

theorem ignoresHandles_listBlock (blocks : List Block) (block : Block) :
    IgnoresHandles (listBlock blocks block) := IgnoresHandles.pure _

theorem ignoresHandles_lfsCtzTraverse (head : Block) (size : ℕ) (acc : List Block) :
    IgnoresHandles (lfsCtzTraverse listBlock head size acc) := by
  have hgo : ∀ fuel head index acc,
      IgnoresHandles (lfsCtzTraverseGo listBlock fuel head index acc) := by
    intro fuel
    induction fuel with
    | zero => exact fun _ _ _ => IgnoresHandles.throw _
    | succ fuel ih =>
        intro head index acc
        rw [lfsCtzTraverseGo]
        apply (ignoresHandles_listBlock acc head).bind
        intro acc
        apply IgnoresHandles.ite (IgnoresHandles.pure _)
        apply (ignoresHandles_readBlock head).bind
        intro image
        apply IgnoresHandles.ite (ih _ _ _)
        exact (ignoresHandles_listBlock _ _).bind fun _ => ih _ _ _
  apply IgnoresHandles.ite (IgnoresHandles.pure _)
  exact IgnoresHandles.get_bind (fun _ _ => rfl) fun _ => hgo _ _ _ _

theorem ignoresHandles_traverseEntry (dir : Mdir) (acc : List Block) (id : ℕ) :
    IgnoresHandles (traverseEntry listBlock true dir acc id) := by
  apply (ignoresHandles_lfsDirGet dir _ _).tryError.bind
  intro result
  cases result with
  | ok attr =>
      apply (ignoresHandles_lfsCtzTraverse _ _ _).ite
      apply IgnoresHandles.ite _ (IgnoresHandles.pure _)
      exact (ignoresHandles_listBlock _ _).bind fun _ => ignoresHandles_listBlock _ _
  | error e =>
      cases e
      case noEntry => exact IgnoresHandles.pure _
      all_goals exact IgnoresHandles.failWith _

theorem ignoresHandles_traverseTails (fuel : ℕ) (tail : Pair) (tortoise : Tortoise)
    (acc : List Block) : IgnoresHandles (traverseTails listBlock true fuel tail tortoise acc) := by
  induction fuel generalizing tail tortoise acc with
  | zero => exact IgnoresHandles.throw _
  | succ fuel ih =>
      rw [traverseTails]
      apply IgnoresHandles.ite (IgnoresHandles.pure _)
      cases lfsTortoiseDetectcycles tail tortoise with
      | none => exact IgnoresHandles.failWith _
      | some tortoise =>
          apply (ignoresHandles_listBlock _ _).bind
          intro acc
          apply (ignoresHandles_listBlock _ _).bind
          intro acc
          apply (ignoresHandles_lfsDirFetch tail).bind
          intro dir
          apply (IgnoresHandles.foldlM _ (ignoresHandles_traverseEntry dir) acc).bind
          exact fun acc => ih _ _ _

theorem ignoresHandles_traverseFile (acc : List Block) (file : Handle) :
    IgnoresHandles (traverseFile listBlock acc file) := by
  have hwriting : ∀ acc, IgnoresHandles (if file.flags.writing ∧ ¬file.flags.inline then
      lfsCtzTraverse listBlock file.block file.pos acc else return acc) :=
    fun acc => (ignoresHandles_lfsCtzTraverse _ _ _).ite (IgnoresHandles.pure _)
  apply IgnoresHandles.ite (IgnoresHandles.pure _)
  apply IgnoresHandles.ite
  · exact (ignoresHandles_lfsCtzTraverse _ _ _).bind hwriting
  · exact (IgnoresHandles.pure _).bind hwriting

/-! ## The blocks of one file -/

/-- The blocks that a traversal reports for an open file. -/
def Pends (lfs : Lfs) (file : Handle) (blocks : List Block) : Prop :=
  traverseFile listBlock [] file lfs.bare = .ok blocks lfs.bare

/-- The same filesystem, with other blocks, another window and other open handles. -/
structure SameFs (lfs lfs' : Lfs) : Prop where
  eq : lfs' = { lfs with disk := lfs'.disk, script := lfs'.script, lookahead := lfs'.lookahead,
                         mlist := lfs'.mlist }

theorem SameFs.bare_eq {lfs lfs' : Lfs} (hsame : SameFs lfs lfs') :
    lfs'.bare = (lfs.bare.withDisk lfs'.disk).withMlist lfs'.mlist := by
  have heq := hsame.eq
  rw [heq]
  rfl

variable {lfs lfs' : Lfs} {file : Handle} {blocks : List Block}

/-- What is listed comes behind what was listed before. -/
theorem Lists.append {scan : FsM Unit} {list : List Block → FsM (List Block)}
    (hlists : Lists scan list) (hrun : list [] lfs.bare = .ok blocks lfs.bare)
    (acc : List Block) : list acc lfs.bare = .ok (acc ++ blocks) lfs.bare := by
  have hbare : lfs.bare.bare = lfs.bare := rfl
  have hboth := hlists lfs.bare
  rw [hbare] at hboth
  cases hscan : scan lfs.bare with
  | ok value middle =>
      obtain ⟨blocks', -, hlist⟩ := hboth.of_ok hscan
      have hfirst : EStateM.Result.ok blocks lfs.bare = .ok ([] ++ blocks') lfs.bare :=
        hrun.symm.trans (hlist [])
      rw [List.nil_append] at hfirst
      cases hfirst
      exact hlist acc
  | error failure middle =>
      apply (hboth.of_error hscan).elim
      · exact fun h => absurd (fun event hevent => absurd hevent List.not_mem_nil) h.2
      · intro h
        obtain ⟨lfs'', hfails⟩ := h []
        cases hrun.symm.trans hfails

theorem Pends.append (hpends : Pends lfs file blocks) (acc : List Block) :
    traverseFile listBlock acc file lfs.bare = .ok (acc ++ blocks) lfs.bare :=
  (lists_traverseFile file).append hpends acc

theorem Pends.frame (hpends : Pends lfs file blocks) (hsame : SameFs lfs lfs')
    (hagree : AgreeOn blocks lfs.disk lfs'.disk) : Pends lfs' file blocks := by
  obtain ⟨-, -, hother⟩ := (readsListed_traverseFile [] file lfs.bare rfl).of_ok hpends
  have hrun := (ignoresHandles_traverseFile [] file lfs'.mlist).of_ok (hother lfs'.disk hagree)
  rw [Pends, hsame.bare_eq]
  exact hrun

/-- What is reported with no handle open stays when other blocks are written. -/
theorem reported_closed (hreported : reported (lfs.withMlist []) = some blocks)
    (hsame : SameFs lfs lfs') (hagree : AgreeOn blocks lfs.disk lfs'.disk) :
    reported (lfs'.withMlist []) = some blocks := by
  rw [← reported_withDisk hreported hagree]
  apply reported_congr
  have heq := hsame.eq
  rw [heq]
  rfl

/-- The open files come behind the tail list, one after the other. -/
theorem reported_of_pends {pend : Handle → List Block}
    (hreported : reported (lfs.withMlist []) = some blocks)
    (hpends : ∀ file ∈ lfs.mlist, Pends lfs file (pend file)) :
    reported lfs = some (blocks ++ lfs.mlist.flatMap pend) := by
  have hfiles : ∀ (mlist : List Handle) (acc : List Block),
      (∀ file ∈ mlist, Pends lfs file (pend file)) →
        mlist.foldlM (traverseFile listBlock) acc lfs.bare =
          .ok (acc ++ mlist.flatMap pend) lfs.bare := by
    intro mlist
    induction mlist with
    | nil =>
        intro acc _
        rw [List.flatMap_nil, List.append_nil]
        rfl
    | cons file rest ih =>
        intro acc hall
        rw [List.foldlM_cons, bind_of_ok ((hall file List.mem_cons_self).append acc),
          ih _ fun other hother => hall other (List.mem_cons_of_mem _ hother), List.flatMap_cons,
          List.append_assoc]
  rw [reported] at hreported
  cases hrun : lfsFsTraverse listBlock true [] (lfs.withMlist []).bare with
  | error failure lfs'' =>
      rw [hrun] at hreported
      cases hreported
  | ok blocks' lfs'' =>
      rw [hrun] at hreported
      obtain rfl : blocks' = blocks := Option.some.inj hreported
      obtain ⟨acc, middle, htails, hrest⟩ := bind_eq_ok.mp
        (show (traverseTails listBlock true (tailFuel lfs) (0, 1) {} [] >>= fun acc =>
          [].foldlM (traverseFile listBlock) acc) (lfs.withMlist []).bare = _ from hrun)
      cases hrest
      have hswap := (ignoresHandles_traverseTails _ _ _ _ lfs.mlist).of_ok htails
      obtain ⟨hsame, -⟩ :=
        (readsListed_traverseTails (tailFuel lfs) (0, 1) {} [] _ rfl).of_ok htails
      subst hsame
      have hopen : traverseTails listBlock true (tailFuel lfs) (0, 1) {} [] lfs.bare =
          .ok blocks' lfs.bare := hswap
      have hrun' : lfsFsTraverse listBlock true [] lfs.bare =
          .ok (blocks' ++ lfs.mlist.flatMap pend) lfs.bare :=
        (bind_of_ok hopen _).trans (hfiles _ _ hpends)
      rw [reported, hrun']

end Littlefs
