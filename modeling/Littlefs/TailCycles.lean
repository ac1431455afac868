import Littlefs.Session
import Littlefs.TailLoops

/-!
# The walks along the tail list

The tail loops of mounting, of the traversal and of the searches for a
predecessor and a parent.  Each ends on every device.  On a list that comes back
to a tail they report `Corrupt`, unless a turn has an answer or an error of its
own before; on a list of different pairs the check for cycles changes nothing.
-/

namespace Littlefs

open Program Cycles

/-! ## The searches for a predecessor and a parent -/

/-- One turn of `lfs_fs_pred`. -/
def predTurn (pair : Pair) (pdir : Option Mdir) (tail : Pair) :
    FsM (Mdir ⊕ Option Mdir × Pair) := do
  if !lfsPairCmp tail pair then
    match pdir with
    | some pdir => return .inl pdir
    | none =>
        let pdir ← lfsDirFetch tail
        if lfsPairIsnull pdir.tail then failWith .noEntry
        return .inl pdir
  else
    let pdir ← lfsDirFetch tail
    return .inr (some pdir, pdir.tail)

/-- One turn of `lfs_fs_parent`. -/
def parentTurn (pair : Pair) (_ : Unit) (tail : Pair) : FsM ((Mdir × Tag) ⊕ Unit × Pair) := do
  let fetched ← lfsDirFetchmatch (lfsFsParentMatch pair) tail
  match fetched.result with
  | .found tag => return .inl (fetched.dir, tag)
  | _ => return .inr ((), fetched.dir.tail)

theorem lfsFsPredGo_eq (pair : Pair) (fuel : ℕ) (tail : Pair) (pdir : Option Mdir)
    (tortoise : Tortoise) :
    lfsFsPredGo pair fuel tail pdir tortoise = tailLoop lfsTortoiseDetectcycles
      (fun _ => failWith .noEntry) (predTurn pair) fuel tail tortoise pdir := by
  induction fuel generalizing tail pdir tortoise with
  | zero => rfl
  | succ fuel ih =>
      rw [lfsFsPredGo.eq_def, tailLoop]
      dsimp only
      cases lfsTortoiseDetectcycles tail tortoise with
      | none => rfl
      | some moved =>
          dsimp only
          rw [predTurn.eq_def]
          cases lfsPairCmp tail pair with
          | false =>
              cases pdir with
              | some pdir => rfl
              | none =>
                  simp only [Bool.not_false, if_true, bind_assoc]
                  congr 2
                  funext pdir
                  cases lfsPairIsnull pdir.tail <;> rfl
          | true => simp [ih]

theorem lfsFsParentGo_eq (pair : Pair) (fuel : ℕ) (tail : Pair) (tortoise : Tortoise) :
    lfsFsParentGo pair fuel tail tortoise = tailLoop lfsTortoiseDetectcycles
      (fun _ => failWith .noEntry) (parentTurn pair) fuel tail tortoise () := by
  induction fuel generalizing tail tortoise with
  | zero => rfl
  | succ fuel ih =>
      rw [lfsFsParentGo, tailLoop]
      cases lfsTortoiseDetectcycles tail tortoise with
      | none => rfl
      | some moved =>
          dsimp only
          rw [parentTurn, bind_assoc]
          congr 3
          funext fetched
          cases fetched.result with
          | found tag => rfl
          | noEntry => exact ih _ _
          | next => exact ih _ _

/-- How a search along the tails fails. -/
def SearchFails (lfs : Lfs) (failure : Fault) : Prop :=
  failure = .error .corrupt ∨ failure = .error .io ∧ ¬Answered lfs ∨
    failure = .error .noEntry ∧ ListEnds lfs.disk lfs.blockCount

theorem SearchFails.of_fetch {lfs lfs' : Lfs} (hreads : Reads lfs lfs') {failure : Fault}
    (hfailure : failure = .error .corrupt ∨ failure = .error .io ∧ ¬Answered lfs') :
    SearchFails lfs failure := by
  apply hfailure.imp_right
  exact fun h => .inl (h.imp_right (mt hreads.answered))

/-- `pair` is on the list, one block possibly replaced. -/
def OnList (lfs : Lfs) (pair : Pair) : Prop :=
  ∃ k tail, tailAt lfs.disk lfs.blockCount k = some tail ∧ lfsPairCmp tail pair = false

/-- A pair on the list has an entry for the directory `pair`. -/
def HasParent (lfs : Lfs) (pair : Pair) : Prop :=
  ∃ k tail fetched tag, tailAt lfs.disk lfs.blockCount k = some tail ∧
    fetchmatch lfs.disk lfs.blockCount lfs.gdisk (lfsFsParentMatch pair) tail = .ok fetched ∧
      fetched.result = .found tag

theorem fetchmatch_of_reads {lfs lfs' : Lfs} (hreads : Reads lfs lfs')
    (cb : Attr → Option Ordering) (pair : Pair) :
    fetchmatch lfs'.disk lfs'.blockCount lfs'.gdisk cb pair =
      fetchmatch lfs.disk lfs.blockCount lfs.gdisk cb pair := by
  rw [hreads.eq]

theorem follows_predTurn (pair : Pair) (lfs : Lfs) :
    Follows lfs.disk lfs.blockCount (Reads lfs) (fun _ _ => OnList lfs pair) (SearchFails lfs)
      (predTurn pair) := by
  intro k pdir tail middle hreads htail hnull
  have hfetch : Outcome (lfsDirFetch tail)
      (fun dir lfs' => Reads lfs lfs' ∧
        nextTail lfs.disk lfs.blockCount tail = some dir.tail)
      (fun failure _ => SearchFails lfs failure) middle := by
    rw [lfsDirFetch, outcome_bind]
    apply (outcome_lfsDirFetchmatch _ tail middle).imp
    · rintro fetched lfs' ⟨hreads', hfetched⟩
      rw [fetchmatch_of_reads hreads] at hfetched
      exact ⟨hreads.trans hreads', nextTail_of_fetchmatch hnull hfetched⟩
    · exact fun failure lfs' h => .of_fetch hreads h.2
  rw [predTurn.eq_def]
  apply outcome_ite
  · intro hcmp
    have hlisted : OnList lfs pair := ⟨k, tail, htail, by simpa using hcmp⟩
    cases pdir with
    | some pdir => exact hlisted
    | none =>
        dsimp only
        rw [outcome_bind]
        apply hfetch.imp
        · rintro pdir lfs' ⟨_, hnext⟩
          apply outcome_ite
          · intro hend
            exact .inr (.inr ⟨rfl, k + 1, pdir.tail, tailAt_succ htail hnext, hend⟩)
          · exact fun _ => hlisted
        · exact fun _ _ h => h
  · intro _
    rw [outcome_bind]
    exact hfetch.imp (fun _ _ h => h) fun _ _ h => h

theorem follows_parentTurn (pair : Pair) (lfs : Lfs) :
    Follows lfs.disk lfs.blockCount (Reads lfs) (fun _ _ => HasParent lfs pair) (SearchFails lfs)
      (parentTurn pair) := by
  intro k acc tail middle hreads htail hnull
  rw [parentTurn, outcome_bind]
  apply (outcome_lfsDirFetchmatch _ tail middle).imp
  · rintro fetched lfs' ⟨hreads', hfetched⟩
    rw [fetchmatch_of_reads hreads] at hfetched
    have hnext : Reads lfs lfs' ∧
        nextTail lfs.disk lfs.blockCount tail = some fetched.dir.tail :=
      ⟨hreads.trans hreads', nextTail_of_fetchmatch hnull hfetched⟩
    cases hresult : fetched.result with
    | found tag => exact ⟨k, tail, fetched, tag, htail, hfetched, hresult⟩
    | noEntry => exact hnext
    | next => exact hnext
  · exact fun failure lfs' h => .of_fetch hreads h.2

theorem finishes_noEntry {β : Type} {α : Type} (lfs : Lfs) (answer : β → Lfs → Prop) :
    Finishes lfs.disk lfs.blockCount (Reads lfs) answer (SearchFails lfs)
      (fun _ : α => failWith .noEntry) :=
  fun _ _ _ hends => .inr (.inr ⟨rfl, hends⟩)

theorem outcome_lfsFsPred {lfs : Lfs} (hcount : lfs.blockCount ≠ 0)
    (hword : lfs.blockCount < 2 ^ 32) (pair : Pair) :
    Outcome (lfsFsPred pair) (fun _ _ => OnList lfs pair) (fun failure _ => SearchFails lfs failure)
      lfs := by
  rw [lfsFsPred, outcome_bind, outcome_get, lfsFsPredGo_eq]
  exact tailLoop_ends hcount hword (.inl rfl) (follows_predTurn pair lfs) (finishes_noEntry lfs _)
    le_rfl _ (Reads.refl lfs)

theorem outcome_lfsFsParent {lfs : Lfs} (hcount : lfs.blockCount ≠ 0)
    (hword : lfs.blockCount < 2 ^ 32) (pair : Pair) :
    Outcome (lfsFsParent pair) (fun _ _ => HasParent lfs pair)
      (fun failure _ => SearchFails lfs failure) lfs := by
  rw [lfsFsParent, outcome_bind, outcome_get, lfsFsParentGo_eq]
  exact tailLoop_ends hcount hword (.inl rfl) (follows_parentTurn pair lfs) (finishes_noEntry lfs _)
    le_rfl _ (Reads.refl lfs)

/-! ## The traversal -/

/-- The metadata on the device stays as it is. -/
structure SameDevice (lfs lfs' : Lfs) : Prop where
  disk : lfs'.disk = lfs.disk
  blockCount : lfs'.blockCount = lfs.blockCount

instance : Std.Refl SameDevice := ⟨fun _ => ⟨rfl, rfl⟩⟩

instance : IsTrans Lfs SameDevice :=
  ⟨fun _ _ _ hleft hright =>
    ⟨hright.disk.trans hleft.disk, hright.blockCount.trans hleft.blockCount⟩⟩

theorem SameDevice.of_reads {lfs lfs' : Lfs} (hreads : Reads lfs lfs') : SameDevice lfs lfs' := by
  rw [hreads.eq]
  exact ⟨rfl, rfl⟩

section

variable {α : Type} {cb : α → Block → FsM α} {fails : Fault → Prop}

/-- The callback of a traversal leaves the device alone and fails as `fails` allows. -/
def Visits (fails : Fault → Prop) (cb : α → Block → FsM α) : Prop :=
  ∀ acc block, Within SameDevice fails (cb acc block)

variable (cb) in
/-- One turn of `lfs_fs_traverse_`. -/
def traverseTurn (includeorphans : Bool) (acc : α) (tail : Pair) : FsM (α ⊕ α × Pair) := do
  let acc ← cb acc tail.1
  let acc ← cb acc tail.2
  let dir ← lfsDirFetch tail
  let acc ← (List.range dir.count).foldlM (traverseEntry cb includeorphans dir) acc
  return .inr (acc, dir.tail)

theorem traverseTails_eq (includeorphans : Bool) (fuel : ℕ) (tail : Pair) (tortoise : Tortoise)
    (acc : α) :
    traverseTails cb includeorphans fuel tail tortoise acc = tailLoop lfsTortoiseDetectcycles
      pure (traverseTurn cb includeorphans) fuel tail tortoise acc := by
  induction fuel generalizing tail tortoise acc with
  | zero => rfl
  | succ fuel ih =>
      rw [traverseTails, tailLoop]
      cases lfsTortoiseDetectcycles tail tortoise with
      | none => rfl
      | some moved => simp [traverseTurn, ih]

theorem fails_of_readFails (hcorrupt : fails (.error .corrupt)) (hio : fails (.error .io))
    {lfs : Lfs} {block : Block} {failure : Fault} (hfails : ReadFails lfs block failure) :
    fails failure := by
  apply hfails.elim
  · intro h
    rwa [h.1]
  · intro h
    rwa [h.1]

theorem within_readBlock (hcorrupt : fails (.error .corrupt)) (hio : fails (.error .io))
    (block : Block) : Within SameDevice fails (readBlock block) := by
  apply Within.of_outcome (outcome_readBlock block)
  · exact fun _ _ _ h => .of_reads h.2.2
  · exact fun _ _ _ h => ⟨.of_reads h.1, fails_of_readFails hcorrupt hio h.2⟩

variable (hcb : Visits fails cb) (hcorrupt : fails (.error .corrupt)) (hio : fails (.error .io))

include hcb hcorrupt hio

/-- The blocks of a file are visited from the last index down to the first. -/
theorem within_lfsCtzTraverseGo {fuel index : ℕ} (hfuel : index < fuel) (head : Block) (acc : α) :
    Within SameDevice fails (lfsCtzTraverseGo cb fuel head index acc) := by
  induction fuel generalizing head index acc with
  | zero => omega
  | succ fuel ih =>
      rw [lfsCtzTraverseGo]
      apply Within.bind (hcb acc head)
      intro acc
      apply Within.ite
      · exact fun _ => Within.pure acc
      · intro hindex
        apply Within.bind (within_readBlock hcorrupt hio head)
        intro image
        apply Within.ite
        · exact fun _ => ih (by omega) _ _
        · exact fun _ => Within.bind (hcb _ _) fun _ => ih (by omega) _ _

theorem within_lfsCtzTraverse (head : Block) (size : ℕ) (acc : α) :
    Within SameDevice fails (lfsCtzTraverse cb head size acc) := by
  apply Within.ite
  · exact fun _ => Within.pure acc
  · intro _
    apply Within.get_bind
    exact fun lfs => within_lfsCtzTraverseGo hcb hcorrupt hio (Nat.lt_succ_self _) head acc

theorem within_traverseEntry (includeorphans : Bool) (dir : Mdir) (acc : α) (id : ℕ) :
    Within SameDevice fails (traverseEntry cb includeorphans dir acc id) := by
  intro lfs
  rw [traverseEntry, outcome_bind]
  apply (outcome_lfsDirGet dir _ _ lfs).tryError
  · rintro attr lfs' ⟨_, hreads⟩
    obtain ⟨tag, data⟩ := attr
    have hblocks : Within SameDevice fails
        (if tag.type3 = tyCtzstruct then lfsCtzTraverse cb data.toPair.1 data.toPair.2 acc
        else if includeorphans = true ∧ tag.type3 = tyDirstruct then do
          let acc ← cb acc data.toPair.1
          cb acc data.toPair.2
        else pure acc) := by
      apply Within.ite
      · exact fun _ => within_lfsCtzTraverse hcb hcorrupt hio _ _ _
      · intro _
        apply Within.ite
        · exact fun _ => Within.bind (hcb _ _) fun _ => hcb _ _
        · exact fun _ => Within.pure acc
    exact hblocks.resume (.of_reads hreads)
  · rintro e lfs' ⟨hreads, hfailure⟩
    have hsame : SameDevice lfs lfs' := .of_reads hreads
    apply hfailure.elim
    · rintro ⟨hnone, _⟩
      cases hnone
      exact hsame
    · intro hread
      have hfails : fails (.error e) := fails_of_readFails hcorrupt hio hread
      cases e <;> first | exact hsame | exact ⟨hsame, hfails⟩
  · rintro fault lfs' hfault ⟨_, hfailure⟩
    apply hfailure.elim
    · exact fun h => absurd h.1 (hfault _)
    · exact fun h => h.elim (fun h => absurd h.1 (hfault _)) fun h => absurd h.1 (hfault _)

theorem within_traverseFile (acc : α) (file : Handle) :
    Within SameDevice fails (traverseFile cb acc file) := by
  have hwriting : ∀ acc, Within SameDevice fails (if file.flags.writing ∧ ¬file.flags.inline then
      lfsCtzTraverse cb file.block file.pos acc else return acc) := by
    intro acc
    apply Within.ite
    · exact fun _ => within_lfsCtzTraverse hcb hcorrupt hio _ _ _
    · exact fun _ => Within.pure acc
  apply Within.ite
  · exact fun _ => Within.pure acc
  · intro _
    apply Within.ite
    · exact fun _ => Within.bind (within_lfsCtzTraverse hcb hcorrupt hio _ _ _) hwriting
    · exact fun _ => Within.bind (Within.pure acc) hwriting

theorem follows_traverseTurn (includeorphans : Bool) (lfs : Lfs) (answer : α → Lfs → Prop) :
    Follows lfs.disk lfs.blockCount (SameDevice lfs) answer fails
      (traverseTurn cb includeorphans) := by
  intro k acc tail middle hsame htail hnull
  have hfetch : ∀ middle, SameDevice lfs middle → Outcome (lfsDirFetch tail)
      (fun dir lfs' => SameDevice lfs lfs' ∧ nextTail lfs.disk lfs.blockCount tail = some dir.tail)
      (fun failure _ => fails failure) middle := by
    intro middle hsame
    rw [lfsDirFetch, outcome_bind]
    apply (outcome_lfsDirFetchmatch _ tail middle).imp
    · rintro fetched lfs' ⟨hreads, hfetched⟩
      rw [hsame.disk, hsame.blockCount] at hfetched
      exact ⟨IsTrans.trans _ _ _ hsame (.of_reads hreads), nextTail_of_fetchmatch hnull hfetched⟩
    · rintro failure lfs' ⟨_, hfailure⟩
      apply hfailure.elim
      · intro h
        rwa [h]
      · intro h
        rwa [h.1]
  rw [traverseTurn, outcome_bind]
  apply ((hcb acc tail.1).resume hsame).imp _ fun _ _ h => h.2
  intro acc middle hsame
  rw [outcome_bind]
  apply ((hcb acc tail.2).resume hsame).imp _ fun _ _ h => h.2
  intro acc middle hsame
  rw [outcome_bind]
  apply (hfetch middle hsame).imp _ fun _ _ h => h
  rintro dir middle ⟨hsame, hnext⟩
  have hentries : Within SameDevice fails
      ((List.range dir.count).foldlM (traverseEntry cb includeorphans dir) acc) :=
    Within.foldlM _ (within_traverseEntry hcb hcorrupt hio includeorphans dir) acc
  rw [outcome_bind]
  apply (hentries.resume hsame).imp _ fun _ _ h => h.2
  exact fun acc lfs' hsame => ⟨hsame, hnext⟩

/-- A traversal ends, and succeeds only where the list ends. -/
theorem outcome_lfsFsTraverse {lfs : Lfs} (hcount : lfs.blockCount ≠ 0)
    (hword : lfs.blockCount < 2 ^ 32) (includeorphans : Bool) (acc : α) :
    Outcome (lfsFsTraverse cb includeorphans acc)
      (fun _ _ => ListEnds lfs.disk lfs.blockCount) (fun failure _ => fails failure) lfs := by
  rw [lfsFsTraverse, outcome_bind, outcome_get, outcome_bind, traverseTails_eq]
  have hends : Outcome (tailLoop lfsTortoiseDetectcycles pure (traverseTurn cb includeorphans)
      (tailFuel lfs) (0, 1) {} acc) (fun _ _ => ListEnds lfs.disk lfs.blockCount)
      (fun failure _ => fails failure) lfs := by
    have hfinishes : Finishes lfs.disk lfs.blockCount (SameDevice lfs)
        (fun _ _ => ListEnds lfs.disk lfs.blockCount) fails (pure : α → FsM α) :=
      fun _ _ _ hends => hends
    exact tailLoop_ends hcount hword hcorrupt
      (follows_traverseTurn hcb hcorrupt hio includeorphans lfs _) hfinishes le_rfl acc ⟨rfl, rfl⟩
  apply hends.imp _ fun _ _ h => h
  intro acc middle hends
  have hfiles : Within SameDevice fails (lfs.mlist.foldlM (traverseFile cb) acc) :=
    Within.foldlM _ (within_traverseFile hcb hcorrupt hio) acc
  exact (hfiles middle).imp (fun _ _ _ => hends) fun _ _ h => h.2

end

/-! ## Mounting -/

/-- What `lfs_mount_` takes from one pair. -/
def mountPair (cfg : Config) (fetched : Fetched) : FsM Unit := do
  match fetched.result with
  | .found tag => if !tag.isdelete then mountSuperblock cfg fetched.dir
  | .noEntry => failWith .noEntry
  | .next => pure ()
  let lfs ← get
  let gstate ← lfsDirGetgstate fetched.dir lfs.gstate
  modify fun lfs => { lfs with gstate := gstate }

/-- One turn of `lfs_mount_`. -/
def mountTurn (cfg : Config) (_ : Unit) (tail : Pair) : FsM (Unit ⊕ Unit × Pair) := do
  let fetched ← lfsDirFetchmatch superblockMatch tail
  mountPair cfg fetched
  return .inr ((), fetched.dir.tail)

theorem mountTails_eq (cfg : Config) (fuel : ℕ) (tail : Pair) (tortoise : Tortoise) :
    mountTails cfg fuel tail tortoise = tailLoop lfsTortoiseDetectcycles
      pure (mountTurn cfg) fuel tail tortoise () := by
  induction fuel generalizing tail tortoise with
  | zero => rfl
  | succ fuel ih =>
      rw [mountTails, tailLoop]
      cases lfsTortoiseDetectcycles tail tortoise with
      | none => rfl
      | some moved =>
          dsimp only
          rw [mountTurn, bind_assoc]
          congr 2
          funext fetched
          rw [mountPair]
          cases fetched.result with
          | found tag => cases hdelete : tag.isdelete <;> simp [hdelete, bind_assoc, ih]
          | noEntry => simp [bind_assoc, ih]
          | next => simp [bind_assoc, ih]

/-- What mounting keeps: the device, and the configured number of blocks. -/
structure MountStep (cfg : Config) (lfs lfs' : Lfs) : Prop where
  disk : lfs'.disk = lfs.disk
  blockCount : lfs.blockCount = cfg.blockCount → lfs'.blockCount = cfg.blockCount

instance (cfg : Config) : Std.Refl (MountStep cfg) := ⟨fun _ => ⟨rfl, fun h => h⟩⟩

instance (cfg : Config) : IsTrans Lfs (MountStep cfg) :=
  ⟨fun _ _ _ hleft hright =>
    ⟨hright.disk.trans hleft.disk, fun h => hright.blockCount (hleft.blockCount h)⟩⟩

/-- How mounting fails. -/
def MountFails (failure : Fault) : Prop :=
  failure = .error .corrupt ∨ failure = .error .io ∨ failure = .error .noEntry ∨
    failure = .error .invalid

section

variable {cfg : Config}

theorem MountStep.of_reads {lfs lfs' : Lfs} (hreads : Reads lfs lfs') : MountStep cfg lfs lfs' := by
  rw [hreads.eq]
  exact ⟨rfl, fun h => h⟩

theorem MountFails.of_readFails {lfs : Lfs} {block : Block} {failure : Fault}
    (hfails : ReadFails lfs block failure) : MountFails failure :=
  fails_of_readFails (.inl rfl) (.inr (.inl rfl)) hfails

theorem within_failWith {α : Type} {e : Error} (hfails : MountFails (.error e)) :
    Within (MountStep cfg) MountFails (failWith e : FsM α) := Within.throw hfails

theorem within_lfsDirGet (dir : Mdir) (gmask : Mask) (gtag : Tag) :
    Within (MountStep cfg) MountFails (lfsDirGet dir gmask gtag) := by
  apply Within.of_outcome (outcome_lfsDirGet dir gmask gtag)
  · exact fun _ _ _ h => .of_reads h.2
  · rintro lfs failure lfs' ⟨hreads, hfailure⟩
    refine ⟨.of_reads hreads, ?_⟩
    apply hfailure.elim
    · exact fun h => .inr (.inr (.inl h.1))
    · exact .of_readFails

theorem within_lfsDirGetgstate (dir : Mdir) (gstate : Gstate) :
    Within (MountStep cfg) MountFails (lfsDirGetgstate dir gstate) := by
  apply Within.bind
  · apply Within.of_outcome (outcome_readLog dir)
    · exact fun _ _ _ h => .of_reads h.2
    · exact fun _ _ _ h => ⟨.of_reads h.1, .of_readFails h.2⟩
  · exact fun _ => Within.pure _

theorem within_checkLimit (stored configured : ℕ) :
    Within (MountStep cfg) MountFails (checkLimit stored configured) := by
  apply Within.ite
  · exact fun _ => Within.pure _
  · intro _
    apply Within.ite
    · exact fun _ => Within.bind (within_failWith (.inr (.inr (.inr rfl)))) fun _ => Within.pure _
    · exact fun _ => Within.pure _

/-- A step that sets neither the device nor the number of blocks. -/
theorem within_modify {update : Lfs → Lfs} (hdisk : ∀ lfs, (update lfs).disk = lfs.disk)
    (hcount : ∀ lfs, (update lfs).blockCount = lfs.blockCount) :
    Within (MountStep cfg) MountFails (modify update) :=
  Within.modify fun lfs => ⟨hdisk lfs, fun h => (hcount lfs).trans h⟩

theorem within_checkLimit_bind {next : ℕ → FsM Unit} {store : ℕ → Lfs → Lfs}
    (hdisk : ∀ limit lfs, (store limit lfs).disk = lfs.disk)
    (hcount : ∀ limit lfs, (store limit lfs).blockCount = lfs.blockCount)
    (stored configured : ℕ) (hnext : ∀ limit, Within (MountStep cfg) MountFails (next limit)) :
    Within (MountStep cfg) MountFails (do
      let limit ← checkLimit stored configured
      modify (store limit)
      next limit) := by
  apply Within.bind (within_checkLimit stored configured)
  intro limit
  apply Within.bind (within_modify (hdisk limit) (hcount limit))
  exact fun _ => hnext limit

/-- The number of blocks of the superblock is the configured one. -/
theorem within_mountBlockCount (hcount : cfg.blockCount ≠ 0) (sb : Superblock) :
    Within (MountStep cfg) MountFails (do
      if cfg.blockCount ≠ 0 ∧ sb.blockCount ≠ cfg.blockCount then
        failWith .invalid
      modify fun lfs => { lfs with blockCount := sb.blockCount }
      if sb.blockSize ≠ cfg.blockSize then
        failWith .invalid) := by
  have hinvalid : MountFails (.error .invalid) := .inr (.inr (.inr rfl))
  apply Within.ite
  · exact fun _ => Within.throw_bind hinvalid _
  · intro hfixed
    apply Within.bind
    · apply Within.modify
      intro lfs
      refine ⟨rfl, fun _ => ?_⟩
      by_contra hne
      exact hfixed ⟨hcount, hne⟩
    · intro _
      apply Within.ite
      · exact fun _ => Within.throw hinvalid
      · exact fun _ => Within.pure _

theorem within_mountSuperblock (hcount : cfg.blockCount ≠ 0) (dir : Mdir) :
    Within (MountStep cfg) MountFails (mountSuperblock cfg dir) := by
  rw [mountSuperblock]
  apply Within.bind
  · exact within_modify (fun _ => rfl) fun _ => rfl
  intro _
  apply Within.bind (within_lfsDirGet _ _ _)
  intro attr
  apply Within.ite
  · exact fun _ => Within.throw_bind (.inr (.inr (.inr rfl))) _
  intro _
  apply Within.bind
  · exact within_modify (fun _ => rfl) fun _ => rfl
  intro _
  apply Within.get_bind
  intro lfs
  apply within_checkLimit_bind
  · exact fun _ _ => rfl
  · exact fun _ _ => rfl
  intro nameMax
  apply within_checkLimit_bind
  · exact fun _ _ => rfl
  · exact fun _ _ => rfl
  intro fileMax
  apply within_checkLimit_bind
  · exact fun _ _ => rfl
  · exact fun _ _ => rfl
  exact fun attrMax => within_mountBlockCount hcount _

theorem within_mountPair (hcount : cfg.blockCount ≠ 0) (fetched : Fetched) :
    Within (MountStep cfg) MountFails (mountPair cfg fetched) := by
  have hgstate : Within (MountStep cfg) MountFails (do
      let lfs ← get
      let gstate ← lfsDirGetgstate fetched.dir lfs.gstate
      modify fun lfs => { lfs with gstate := gstate }) := by
    apply Within.get_bind
    intro lfs
    apply Within.bind (within_lfsDirGetgstate _ _)
    exact fun gstate => within_modify (fun _ => rfl) fun _ => rfl
  rw [mountPair]
  cases fetched.result with
  | found tag =>
      apply Within.ite
      · exact fun _ => Within.bind (within_mountSuperblock hcount _) fun _ => hgstate
      · exact fun _ => hgstate
  | noEntry => exact Within.throw_bind (.inr (.inr (.inl rfl))) _
  | next => exact hgstate

theorem follows_mountTurn (hcount : cfg.blockCount ≠ 0) (disk : Block → BlockImage)
    (answer : Unit → Lfs → Prop) :
    Follows disk cfg.blockCount (fun lfs => lfs.disk = disk ∧ lfs.blockCount = cfg.blockCount)
      answer MountFails (mountTurn cfg) := by
  rintro k acc tail lfs ⟨hdisk, hblocks⟩ htail hnull
  rw [mountTurn, outcome_bind]
  apply (outcome_lfsDirFetchmatch _ tail lfs).imp
  · rintro fetched middle ⟨hreads, hfetched⟩
    rw [hdisk, hblocks] at hfetched
    rw [outcome_bind]
    apply ((within_mountPair hcount fetched).resume (.of_reads hreads)).imp
    · intro _ lfs' hstep
      exact ⟨⟨hstep.disk.trans hdisk, hstep.blockCount hblocks⟩,
        nextTail_of_fetchmatch hnull hfetched⟩
    · exact fun _ _ h => h.2
  · rintro failure lfs' ⟨_, hfailure⟩
    exact hfailure.imp_right fun h => .inl h.1

/-- Mounting ends, and succeeds only where the list ends. -/
theorem outcome_lfsMount (hcount : cfg.blockCount ≠ 0) (hword : cfg.blockCount < 2 ^ 32)
    (seed : ℕ) (lfs : Lfs) :
    Outcome (lfsMount cfg seed) (fun _ _ => ListEnds lfs.disk cfg.blockCount)
      (fun failure _ => MountFails failure) lfs := by
  have hfinishes : Finishes lfs.disk cfg.blockCount
      (fun lfs' => lfs'.disk = lfs.disk ∧ lfs'.blockCount = cfg.blockCount)
      (fun _ lfs' => ListEnds lfs.disk cfg.blockCount ∧ lfs'.blockCount = cfg.blockCount)
      MountFails (pure : Unit → FsM Unit) := fun _ _ hinv hends => ⟨hends, hinv.2⟩
  have hfuel : walkFuel cfg.blockCount ≤ walkFuel (2 ^ 32) := by
    rw [walkFuel, walkFuel]
    gcongr
  have hstart : (lfsInit cfg lfs).disk = lfs.disk ∧
      (lfsInit cfg lfs).blockCount = cfg.blockCount := ⟨rfl, rfl⟩
  rw [lfsMount, outcome_bind, outcome_modify, outcome_bind, mountTails_eq]
  have htails := tailLoop_ends hcount hword (.inl rfl)
    (follows_mountTurn hcount lfs.disk _) hfinishes hfuel () hstart
  apply htails.imp
  · rintro _ lfs' ⟨hends, hblocks⟩
    rw [outcome_bind, outcome_get]
    dsimp only
    rw [if_neg (hblocks ▸ hcount)]
    exact hends
  · exact fun _ _ h => h

end

/-! ## Lists of few pairs -/

def superblockTags (cfg : Config) : List Attr :=
  [(⟨tyCreate, 0, 0⟩, .empty), (⟨tySuperblock, 0, 8⟩, .bytes magic),
    (superblockTag, .superblock
      { version := diskVersion, blockSize := cfg.blockSize, blockCount := cfg.blockCount,
        nameMax := 255, fileMax := 2147483647, attrMax := 1022 })]

/-- A device that holds one commit with a tail in each of the blocks of `tails`. -/
def tailsDevice (cfg : Config) (tails : List (Block × Pair)) : Lfs :=
  { blankDevice cfg with
    blockCount := cfg.blockCount
    disk := fun block =>
      match tails.lookup block with
      | none => {}
      | some tail =>
          let tags := if block = 0 then superblockTags cfg else []
          { rev := 1, commits := [{ tags := tags ++ [(tailTag false, .pair tail)], off := 96 }] } }

/-- The blocks of `{2, 3}` have one revision and different tails, so the order in
which a tail names them decides where the list goes on. -/
def swappedList : Lfs :=
  tailsDevice smallConfig [(0, (2, 3)), (2, (3, 2)), (3, (blockNull, blockNull))]

def ringList : Lfs := tailsDevice smallConfig [(0, (2, 3)), (2, (0, 1))]

def plainList : Lfs := tailsDevice smallConfig [(0, (2, 3)), (2, (blockNull, blockNull))]

/-! ## All four loops -/

/-- The run ends by itself. -/
def Ends {α : Type} (program : FsM α) (lfs : Lfs) : Prop :=
  Outcome program (fun _ _ => True) (fun failure _ => failure ≠ .outOfFuel) lfs

theorem SearchFails.ne_outOfFuel {lfs : Lfs} {failure : Fault} (hfails : SearchFails lfs failure) :
    failure ≠ .outOfFuel := by
  intro h
  subst h
  simp [SearchFails] at hfails

theorem SearchFails.of_comesBack {lfs : Lfs} {failure : Fault} (hfails : SearchFails lfs failure)
    (hback : ComesBack lfs.disk lfs.blockCount) :
    failure = .error .corrupt ∨ failure = .error .io ∧ ¬Answered lfs := by
  apply hfails.imp_right
  exact fun h => h.resolve_right fun h => hback.not_listEnds h.2

/-- What a traversal may fail with besides the failures of its callback. -/
def OrReads (fails : Fault → Prop) (failure : Fault) : Prop :=
  failure = .error .corrupt ∨ failure = .error .io ∨ fails failure

theorem Visits.orReads {α : Type} {fails : Fault → Prop} {cb : α → Block → FsM α}
    (hcb : Visits fails cb) : Visits (OrReads fails) cb := fun acc block lfs =>
  (hcb acc block lfs).imp (fun _ _ h => h) fun _ _ h => ⟨h.1, .inr (.inr h.2)⟩

theorem visits_count :
    Visits (fun _ => False) (fun (size : ℕ) (_ : Block) => (pure (size + 1) : FsM ℕ)) :=
  fun size _ => Within.pure (size + 1)

theorem comesBack_ringList : ComesBack ringList.disk 64 :=
  ⟨0, 2, (0, 1), by decide, by decide +kernel, by decide +kernel⟩

theorem pairsDiffer_plainList : PairsDiffer plainList.disk 64 := by
  intro k l tail tail' hlt htail htail' hnull
  have hend : tailAt plainList.disk 64 3 = none := by decide +kernel
  have hl : l < 3 := by
    by_contra h
    rw [tailAt_none_of_le (by omega) hend] at htail'
    cases htail'
  interval_cases l <;> interval_cases k <;> cases htail <;> cases htail' <;> revert hnull <;> decide

end Littlefs
