import Littlefs.Find
import Littlefs.Lib.Outcome

/-!
# Programs that only read

A program that reads metadata changes nothing but the script of device
accesses.  Its answer does not depend on the script either: it ends as it would
on a device that answers every access, or with `Io`.
-/

namespace Littlefs

open Program

/-- The error codes of a call become values; a panic passes. -/
theorem outcome_tryError {α : Type} {program : FsM α} {post : Except Error α → Lfs → Prop}
    {fail : Fault → Lfs → Prop} {lfs : Lfs} :
    Outcome (tryError program) post fail lfs ↔
      Outcome program (fun value => post (.ok value))
        (fun failure lfs' => match failure with
          | .error e => post (.error e) lfs'
          | failure => fail failure lfs') lfs := by
  rw [tryError, outcome_attempt]
  unfold Outcome
  cases program lfs with
  | ok value lfs' => rfl
  | error failure lfs' => cases failure <;> rfl

/-- A call whose error codes are looked at, and whose panics pass. -/
theorem Program.Outcome.tryError {α : Type} {program : FsM α} {ok : α → Lfs → Prop}
    {err fail : Fault → Lfs → Prop} {post : Except Error α → Lfs → Prop} {lfs : Lfs}
    (hprogram : Outcome program ok err lfs)
    (hok : ∀ value lfs', ok value lfs' → post (.ok value) lfs')
    (herror : ∀ e lfs', err (.error e) lfs' → post (.error e) lfs')
    (hfault : ∀ fault lfs', (∀ e, fault ≠ .error e) → err fault lfs' → fail fault lfs') :
    Outcome (Littlefs.tryError program) post fail lfs := by
  rw [outcome_tryError]
  refine hprogram.imp hok fun failure lfs' hfailure => ?_
  cases failure with
  | error e => exact herror e lfs' hfailure
  | panic reason => exact hfault _ _ (fun e h => by cases h) hfailure
  | outOfFuel => exact hfault _ _ (fun e h => by cases h) hfailure
  | badHandle => exact hfault _ _ (fun e h => by cases h) hfailure

/-- The device as it is, with every access to come succeeding. -/
def Lfs.quiet (lfs : Lfs) : Lfs := { lfs with script := [] }

/-- Every access to come succeeds. -/
def Answered (lfs : Lfs) : Prop := ∀ event ∈ lfs.script, event = .ok

/-- The same filesystem after some accesses. -/
structure Reads (lfs lfs' : Lfs) : Prop where
  eq : lfs' = { lfs with script := lfs'.script }
  suffix : lfs'.script <:+ lfs.script

namespace Reads

variable {lfs middle lfs' : Lfs}

theorem eq_quiet (hreads : Reads lfs lfs') : lfs'.quiet = lfs.quiet := by
  rw [hreads.eq]
  rfl

theorem answered (hreads : Reads lfs lfs') (hanswered : Answered lfs) : Answered lfs' :=
  fun event hevent => hanswered event (hreads.suffix.subset hevent)

@[simp]
theorem refl (lfs : Lfs) : Reads lfs lfs := ⟨rfl, List.suffix_rfl⟩

theorem trans (hleft : Reads lfs middle) (hright : Reads middle lfs') : Reads lfs lfs' where
  eq := by rw [hright.eq, hleft.eq]
  suffix := hright.suffix.trans hleft.suffix

end Reads

instance : Std.Refl Reads := ⟨Reads.refl⟩

instance : IsTrans Lfs Reads := ⟨fun _ _ _ => Reads.trans⟩

/-- How a steady program may fail from `lfs`: as on the quiet device, or because an access
fails. -/
def Excused (lfs : Lfs) (failure : Fault) (quiet : Prop) : Prop :=
  (failure = .error .io ∧ ¬Answered lfs) ∨ quiet

theorem Excused.imp {lfs lfs' : Lfs} {failure : Fault} {quiet quiet' : Prop}
    (hexcused : Excused lfs' failure quiet) (hreads : Reads lfs lfs') (himp : quiet → quiet') :
    Excused lfs failure quiet' :=
  Or.imp (And.imp_right (mt hreads.answered)) himp hexcused

/-- `program` reads, and ends as on a quiet device or with `Io`. -/
def Steady {α : Type} (program : FsM α) : Prop :=
  ∀ lfs, Outcome program
    (fun value lfs' => Reads lfs lfs' ∧ program lfs.quiet = .ok value lfs.quiet)
    (fun failure lfs' => Reads lfs lfs' ∧
      Excused lfs failure (program lfs.quiet = .error failure lfs.quiet)) lfs

namespace Steady

variable {α β : Type}

theorem reads {program : FsM α} (hprogram : Steady program) : Respects Reads program :=
  fun lfs => (hprogram lfs).imp (fun _ _ h => h.1) fun _ _ h => h.1

theorem of_ok {program : FsM α} (hprogram : Steady program) {value : α} {lfs lfs' : Lfs}
    (hrun : program lfs = .ok value lfs') :
    Reads lfs lfs' ∧ program lfs.quiet = .ok value lfs.quiet :=
  (hprogram lfs).of_ok hrun

theorem pure (value : α) : Steady (Pure.pure value) := fun lfs => ⟨Reads.refl lfs, rfl⟩

theorem throw (fault : Fault) : Steady (MonadExcept.throw fault : FsM α) :=
  fun lfs => ⟨Reads.refl lfs, Or.inr rfl⟩

theorem failWith (e : Error) : Steady (Littlefs.failWith e : FsM α) := throw _

/-- The rest of a program, after accesses that leave the quiet device as it is. -/
theorem resume {program : FsM α} (hprogram : Steady program) {lfs middle : Lfs}
    (hreads : Reads lfs middle) :
    Outcome program
      (fun value lfs' => Reads lfs lfs' ∧ program lfs.quiet = .ok value lfs.quiet)
      (fun failure lfs' => Reads lfs lfs' ∧
        Excused lfs failure (program lfs.quiet = .error failure lfs.quiet)) middle := by
  rw [← hreads.eq_quiet]
  exact (hprogram middle).imp (fun _ _ h => ⟨hreads.trans h.1, h.2⟩) fun _ _ h =>
    ⟨hreads.trans h.1, h.2.imp hreads id⟩

theorem bind {program : FsM α} {next : α → FsM β} (hprogram : Steady program)
    (hnext : ∀ value, Steady (next value)) : Steady (program >>= next) := by
  intro lfs
  rw [outcome_bind]
  refine (hprogram lfs).imp ?_ ?_
  · rintro value middle ⟨hreads, hquiet⟩
    rw [bind_of_ok hquiet]
    exact (hnext value).resume hreads
  · rintro failure middle ⟨hreads, hfailure⟩
    exact ⟨hreads, hfailure.imp (Reads.refl lfs) fun hquiet => bind_eq_error.mpr (Or.inl hquiet)⟩

/-- A program may ask for everything but the script. -/
theorem get_bind {next : Lfs → FsM α} (hscript : ∀ lfs, next lfs.quiet = next lfs)
    (hnext : ∀ lfs, Steady (next lfs)) : Steady (get >>= next) := by
  intro lfs
  rw [outcome_bind, outcome_get]
  have hbind : (get >>= next) lfs.quiet = next lfs lfs.quiet := by
    rw [← hscript]
    rfl
  rw [hbind]
  exact hnext lfs lfs

theorem ite {condition : Prop} [Decidable condition] {program other : FsM α}
    (hyes : Steady program) (hno : Steady other) :
    Steady (if condition then program else other) := by
  split
  · exact hyes
  · exact hno

theorem liftExcept (result : Except Error α) : Steady (Littlefs.liftExcept result) := by
  cases result with
  | ok value => exact pure value
  | error e => exact failWith e

/-- An answer to a caught error other than `Io` is as steady as the call. -/
theorem tryError {program : FsM α} {next : Except Error α → FsM β} (hprogram : Steady program)
    (hnext : ∀ result, Steady (next result)) (hio : next (.error .io) = Littlefs.failWith .io) :
    Steady (Littlefs.tryError program >>= next) := by
  intro lfs
  rw [outcome_bind, Littlefs.tryError, outcome_attempt]
  refine (hprogram lfs).imp ?_ ?_
  · rintro value middle ⟨hreads, hquiet⟩
    rw [bind_of_ok (attempt_eq_ok_ok.mpr hquiet)]
    exact (hnext _).resume hreads
  · rintro failure middle ⟨hreads, hfailure⟩
    cases hcatch : Fault.toError? failure with
    | some e =>
        dsimp only
        rcases hfailure with ⟨hfailure, hanswered⟩ | hquiet
        · subst hfailure
          cases hcatch
          rw [hio]
          exact ⟨hreads, Or.inl ⟨rfl, hanswered⟩⟩
        · rw [bind_of_ok (attempt_eq_ok_error.mpr ⟨failure, hquiet, hcatch⟩)]
          exact (hnext _).resume hreads
    | none =>
        refine ⟨hreads, hfailure.imp (Reads.refl lfs) fun hquiet =>
          bind_eq_error.mpr (Or.inl ?_)⟩
        unfold Program.attempt
        rw [hquiet]
        simp [hcatch]

end Steady

/-! ## The device and the metadata -/

theorem nextEvent_eq (lfs : Lfs) :
    nextEvent lfs = .ok (lfs.script.headD .ok) { lfs with script := lfs.script.tail } := by
  obtain ⟨disk, eraseBad, progBad, script⟩ := lfs
  cases script <;> rfl

theorem reads_tail (lfs : Lfs) : Reads lfs { lfs with script := lfs.script.tail } :=
  ⟨rfl, List.tail_suffix lfs.script⟩

theorem not_answered_of_head {lfs : Lfs} (hevent : lfs.script.headD .ok ≠ .ok) : ¬Answered lfs := by
  intro hanswered
  cases hscript : lfs.script with
  | nil => simp [hscript] at hevent
  | cons event script =>
      rw [hscript] at hevent
      exact hevent (hanswered event (hscript ▸ List.mem_cons_self))

/-- The next access succeeds, or the device fails it with `Io`. -/
theorem steady_event {α : Type} {next : Event → FsM α} (hok : Steady (next .ok))
    (hfail : ∀ event, event ≠ .ok → next event = failWith .io) :
    Steady (nextEvent >>= next) := by
  intro lfs
  have hquiet : (nextEvent >>= next) lfs.quiet = next .ok lfs.quiet := rfl
  rw [hquiet]
  unfold Outcome
  rw [bind_of_ok (nextEvent_eq lfs)]
  by_cases hevent : lfs.script.headD .ok = .ok
  · rw [hevent]
    exact hok.resume (reads_tail lfs)
  · rw [hfail _ hevent]
    exact ⟨reads_tail lfs, Or.inl ⟨rfl, not_answered_of_head hevent⟩⟩

/-- `block` passes the bounds check of a read. -/
def OnDevice (lfs : Lfs) (block : Block) : Prop := ¬(lfs.blockCount ≠ 0 ∧ lfs.blockCount ≤ block)

theorem outcome_nextEvent {post : Event → Lfs → Prop} {fail : Fault → Lfs → Prop} {lfs : Lfs} :
    Outcome nextEvent post fail lfs ↔
      post (lfs.script.headD .ok) { lfs with script := lfs.script.tail } := by
  unfold Outcome
  rw [nextEvent_eq]

/-- Why a read of `block` fails. -/
def ReadFails (lfs : Lfs) (block : Block) (failure : Fault) : Prop :=
  failure = .error .corrupt ∧ ¬OnDevice lfs block ∨ failure = .error .io ∧ ¬Answered lfs

theorem outcome_readBlock (block : Block) (lfs : Lfs) :
    Outcome (readBlock block)
      (fun image lfs' => image = lfs.disk block ∧ OnDevice lfs block ∧ Reads lfs lfs')
      (fun failure lfs' => Reads lfs lfs' ∧ ReadFails lfs block failure) lfs := by
  rw [readBlock, outcome_bind, outcome_get]
  refine outcome_ite (fun hrange => ?_) fun hrange => ?_
  · exact ⟨Reads.refl lfs, Or.inl ⟨rfl, not_not.mpr hrange⟩⟩
  · rw [outcome_bind, outcome_nextEvent]
    split
    · exact ⟨rfl, hrange, reads_tail lfs⟩
    · rename_i hevent
      exact ⟨reads_tail lfs, Or.inr ⟨rfl, not_answered_of_head hevent⟩⟩

theorem steady_readBlock (block : Block) : Steady (readBlock block) := by
  unfold readBlock
  refine Steady.get_bind (fun _ => rfl) fun lfs => Steady.ite ?_ ?_
  · exact Steady.bind (Steady.failWith _) fun _ => steady_event
      (Steady.pure _) fun event hevent => by
      cases event <;> first | rfl | exact absurd rfl hevent
  · exact steady_event (Steady.pure _) fun event hevent => by
      cases event <;> first | rfl | exact absurd rfl hevent

theorem steady_lfsDirFetchmatch (cb : Attr → Option Ordering) (pair : Pair) :
    Steady (lfsDirFetchmatch cb pair) := by
  unfold lfsDirFetchmatch
  refine Steady.get_bind (fun _ => rfl) fun lfs => Steady.ite ?_ ?_
  · exact Steady.bind (Steady.failWith _) fun _ =>
      Steady.bind (steady_readBlock _) fun _ => Steady.liftExcept _
  · exact Steady.bind (steady_readBlock _) fun _ => Steady.liftExcept _

theorem steady_lfsDirFetch (pair : Pair) : Steady (lfsDirFetch pair) :=
  Steady.bind (steady_lfsDirFetchmatch _ _) fun _ => Steady.pure _

theorem steady_readLog (dir : Mdir) : Steady (readLog dir) :=
  Steady.ite (Steady.pure _) (Steady.bind (steady_readBlock _) fun _ => Steady.pure _)

/-- The tags a read of `dir` finds. -/
def readableLog (lfs : Lfs) (dir : Mdir) : List Attr :=
  if dir.off ≤ 4 then [] else mdirLog lfs.disk dir

/-- What `lfs_dir_get` finds when its reads succeed. -/
def lookupAttr (lfs : Lfs) (dir : Mdir) (gmask : Mask) (gtag : Tag) : Option Attr :=
  getslice lfs.gdisk dir (readableLog lfs dir) gmask gtag

theorem outcome_readLog (dir : Mdir) (lfs : Lfs) :
    Outcome (readLog dir)
      (fun log lfs' => log = readableLog lfs dir ∧ Reads lfs lfs')
      (fun failure lfs' => Reads lfs lfs' ∧ ReadFails lfs dir.pair.1 failure) lfs := by
  refine outcome_ite (fun hoff => ?_) fun hoff => ?_
  · exact ⟨by rw [readableLog, if_pos hoff], Reads.refl lfs⟩
  · rw [outcome_bind]
    refine (outcome_readBlock _ _).imp ?_ fun _ _ h => h
    rintro image lfs' ⟨rfl, -, hreads⟩
    exact ⟨by rw [readableLog, if_neg hoff]; rfl, hreads⟩

theorem outcome_lfsDirGet (dir : Mdir) (gmask : Mask) (gtag : Tag) (lfs : Lfs) :
    Outcome (lfsDirGet dir gmask gtag)
      (fun attr lfs' => lookupAttr lfs dir gmask gtag = some attr ∧ Reads lfs lfs')
      (fun failure lfs' => Reads lfs lfs' ∧
        (failure = .error .noEntry ∧ lookupAttr lfs dir gmask gtag = none ∨
          ReadFails lfs dir.pair.1 failure)) lfs := by
  rw [lfsDirGet, outcome_bind]
  refine (outcome_readLog dir lfs).imp ?_ fun _ _ h => ⟨h.1, Or.inr h.2⟩
  rintro log lfs' ⟨rfl, hreads⟩
  rw [outcome_bind, outcome_get]
  have hslice : getslice lfs'.gdisk dir (readableLog lfs dir) gmask gtag =
      lookupAttr lfs dir gmask gtag := by
    rw [hreads.eq]
    rfl
  rw [hslice]
  cases hfound : lookupAttr lfs dir gmask gtag with
  | none => exact ⟨hreads, Or.inl ⟨rfl, rfl⟩⟩
  | some attr => exact ⟨rfl, hreads⟩

theorem steady_lfsDirGet (dir : Mdir) (gmask : Mask) (gtag : Tag) :
    Steady (lfsDirGet dir gmask gtag) := by
  refine Steady.bind (steady_readLog dir) fun log => Steady.get_bind (fun _ => rfl) fun lfs => ?_
  cases getslice lfs.gdisk dir log gmask gtag with
  | none => exact Steady.failWith _
  | some attr => exact Steady.pure _

theorem steady_lfsDirGetgstate (dir : Mdir) (gstate : Gstate) :
    Steady (lfsDirGetgstate dir gstate) :=
  Steady.bind (steady_readLog dir) fun _ => Steady.pure _

theorem locate_eq_or_swap {disk : Block → BlockImage} {pair found : Pair}
    (hlocate : locate disk pair = some found) : found = pair ∨ found = pair.swap := by
  unfold locate at hlocate
  dsimp only at hlocate
  split_ifs at hlocate <;> cases hlocate <;> simp

/-- A successful fetch has located the pair on the device. -/
theorem fetchmatch_ok {disk : Block → BlockImage} {blockCount : ℕ} {gdisk : Gstate}
    {cb : Attr → Option Ordering} {pair : Pair} {fetched : Fetched}
    (hfetched : fetchmatch disk blockCount gdisk cb pair = .ok fetched) :
    outOfRange blockCount pair = false ∧
      ∃ found, locate disk pair = some found ∧ fetched.dir = mdirOf disk found := by
  unfold fetchmatch at hfetched
  split at hfetched
  · cases hfetched
  · rename_i hrange
    refine ⟨by simpa using hrange, ?_⟩
    split at hfetched
    · cases hfetched
    · rename_i found hlocate
      cases hfetched
      exact ⟨found, hlocate, rfl⟩

theorem outcome_lfsDirFetchmatch (cb : Attr → Option Ordering) (pair : Pair) (lfs : Lfs) :
    Outcome (lfsDirFetchmatch cb pair)
      (fun fetched lfs' => Reads lfs lfs' ∧
        fetchmatch lfs.disk lfs.blockCount lfs.gdisk cb pair = .ok fetched)
      (fun failure lfs' => Reads lfs lfs' ∧
        (failure = .error .corrupt ∨ failure = .error .io ∧ ¬Answered lfs)) lfs := by
  rw [lfsDirFetchmatch, outcome_bind, outcome_get]
  refine outcome_ite (fun hrange => ?_) fun hrange => ?_
  · exact ⟨Reads.refl lfs, Or.inl rfl⟩
  · rw [outcome_bind]
    refine (outcome_readBlock _ _).imp ?_ ?_
    · rintro image lfs' ⟨-, -, hreads⟩
      cases hfetch : fetchmatch lfs.disk lfs.blockCount lfs.gdisk cb pair with
      | ok fetched => exact ⟨hreads, rfl⟩
      | error e =>
          refine ⟨hreads, Or.inl ?_⟩
          unfold fetchmatch at hfetch
          split at hfetch
          · cases hfetch
            rfl
          · split at hfetch <;> cases hfetch
            rfl
    · rintro failure lfs' ⟨hreads, ⟨rfl, -⟩ | hio⟩
      · exact ⟨hreads, Or.inl rfl⟩
      · exact ⟨hreads, Or.inr hio⟩

theorem onDevice_of_fetchmatch {lfs : Lfs} {cb : Attr → Option Ordering} {pair : Pair}
    {fetched : Fetched}
    (hfetched : fetchmatch lfs.disk lfs.blockCount lfs.gdisk cb pair = .ok fetched) :
    OnDevice lfs fetched.dir.pair.1 := by
  obtain ⟨hrange, found, hlocate, hdir⟩ := fetchmatch_ok hfetched
  have hpair : fetched.dir.pair = found := by rw [hdir]; rfl
  rw [hpair, OnDevice]
  simp only [outOfRange, Bool.and_eq_false_iff, bne_eq_false_iff_eq, Bool.or_eq_false_iff,
    decide_eq_false_iff_not] at hrange
  rcases locate_eq_or_swap hlocate with rfl | rfl
  · rintro ⟨hne, hle⟩
    rcases hrange with h | h
    · exact hne h
    · exact h.1 hle
  · rintro ⟨hne, hle⟩
    rcases hrange with h | h
    · exact hne h
    · exact h.2 hle

/-! ## Paths -/

theorem steady_findName (name : Bytes) (fuel : ℕ) (tail : Pair) :
    Steady (findName name fuel tail) := by
  induction fuel generalizing tail with
  | zero => exact Steady.throw _
  | succ fuel ih =>
      refine Steady.bind (steady_lfsDirFetchmatch _ _) fun fetched => ?_
      cases fetched.result with
      | next => exact Steady.ite (ih _) (Steady.pure _)
      | found tag => exact Steady.pure _
      | noEntry => exact Steady.pure _

/-- The lookup of the component `name`, once the pair it is looked up from is
known. -/
theorem steady_lookup (found : Found) (name : Bytes) (length : ℕ) (tail : Option Pair)
    {next : Found → Tag → FsM Found} (hnext : ∀ found tag, Steady (next found tag)) :
    Steady (match tail with
      | none => return { found with tag := none }
      | some tail => do
          let lfs ← get
          let fetched ← findName (name.take length) (tailFuel lfs) tail
          let found := { found with dir := fetched.dir, id := fetched.id }
          match fetched.result with
          | .found tag => next found tag
          | _ => return { found with tag := none }) := by
  cases tail with
  | none => exact Steady.pure _
  | some tail =>
      refine Steady.get_bind (fun _ => rfl) fun lfs =>
        Steady.bind (steady_findName _ _ _) fun fetched => ?_
      dsimp only
      cases fetched.result with
      | found tag => exact hnext _ _
      | noEntry => exact Steady.pure _
      | next => exact Steady.pure _

theorem steady_lfsDirFindGo (fuel : ℕ) (found : Found) (name : Bytes) (tag : Tag) :
    Steady (lfsDirFindGo fuel found name tag) := by
  induction fuel generalizing found name tag with
  | zero => exact Steady.throw _
  | succ fuel ih =>
      rw [lfsDirFindGo]
      generalize (if tag.type3 = tyDir then name.drop (lfsStrspn name slash) else name) = name
      dsimp only
      refine Steady.ite (ih _ _ _) (Steady.ite (Steady.failWith _) ?_)
      cases cancelled (name.length + 1) (name.drop (lfsStrcspn name slash)) 1 with
      | some rest => exact ih _ _ _
      | none =>
          refine Steady.ite (Steady.pure _) ?_
          have hlookup := fun tail => steady_lookup { found with path := name } name
            (lfsStrcspn name slash) tail
            fun found tag => ih found (name.drop (lfsStrcspn name slash)) tag
          have hbind := fun tail => Steady.bind (Steady.pure tail) hlookup
          refine Steady.ite (Steady.bind (Steady.failWith _) fun _ => ?_) ?_
          all_goals
            refine Steady.ite ?_ (hbind _)
            refine Steady.tryError (steady_lfsDirGet _ _ _) (fun result => ?_) rfl
            split
            · exact hbind _
            · exact hbind _
            · exact Steady.bind (Steady.failWith _) hlookup

theorem steady_lfsDirFind (path : Bytes) : Steady (lfsDirFind path) := by
  unfold lfsDirFind
  refine Steady.ite (Steady.bind (Steady.failWith _) fun _ => ?_) ?_ <;>
  exact Steady.get_bind (fun _ => rfl) fun lfs => steady_lfsDirFindGo _ _ _ _

/-! ## What a lookup by name returns -/

theorem OnDevice.of_reads {lfs lfs' : Lfs} {block : Block} (hreads : Reads lfs lfs') :
    OnDevice lfs' block ↔ OnDevice lfs block := by
  rw [hreads.eq]
  rfl

theorem findName_onDevice (name : Bytes) (fuel : ℕ) (tail : Pair) (lfs : Lfs) :
    Outcome (findName name fuel tail)
      (fun fetched lfs' => Reads lfs lfs' ∧ OnDevice lfs fetched.dir.pair.1)
      (fun _ _ => True) lfs := by
  induction fuel generalizing tail lfs with
  | zero => trivial
  | succ fuel ih =>
      rw [findName, outcome_bind]
      refine (outcome_lfsDirFetchmatch _ _ lfs).imp ?_ fun _ _ _ => trivial
      rintro fetched lfs' ⟨hreads, hfetched⟩
      have hdevice := onDevice_of_fetchmatch hfetched
      have hstop : Reads lfs lfs' ∧ OnDevice lfs fetched.dir.pair.1 := ⟨hreads, hdevice⟩
      cases fetched.result with
      | found tag => exact hstop
      | noEntry => exact hstop
      | next =>
          refine outcome_ite (fun _ => ?_) fun _ => hstop
          refine (ih _ lfs').imp ?_ fun _ _ _ => trivial
          rintro fetched' lfs'' ⟨hreads', hdevice'⟩
          exact ⟨hreads.trans hreads', (OnDevice.of_reads hreads).mp hdevice'⟩

/-- The tag of an entry other than the root was read from the pair found with it. -/
def FoundOnDevice (lfs : Lfs) (dir : Mdir) (tag : Tag) : Prop :=
  tag.type3 = tyDir ∨ OnDevice lfs dir.pair.1

theorem lfsDirFindGo_onDevice (fuel : ℕ) (found : Found) (name : Bytes) (tag : Tag) (lfs : Lfs)
    (hfound : FoundOnDevice lfs found.dir tag) :
    Outcome (lfsDirFindGo fuel found name tag)
      (fun found' lfs' => Reads lfs lfs' ∧
        ∀ tag' ∈ found'.tag, FoundOnDevice lfs found'.dir tag')
      (fun _ _ => True) lfs := by
  induction fuel generalizing found name tag lfs with
  | zero => trivial
  | succ fuel ih =>
      have hnone : ∀ (dir : Mdir) (id : ℕ) (path : Bytes) (lfs' : Lfs), Reads lfs lfs' →
          Reads lfs lfs' ∧ ∀ tag' ∈ (⟨dir, id, path, none⟩ : Found).tag,
            FoundOnDevice lfs dir tag' :=
        fun _ _ _ _ hreads => ⟨hreads, by simp⟩
      rw [lfsDirFindGo]
      generalize (if tag.type3 = tyDir then name.drop (lfsStrspn name slash) else name) = name
      dsimp only
      refine outcome_ite (fun _ => ih _ _ _ _ hfound) fun _ => outcome_ite (fun _ => trivial)
        fun _ => ?_
      cases cancelled (name.length + 1) (name.drop (lfsStrcspn name slash)) 1 with
      | some rest => exact ih _ _ _ _ hfound
      | none =>
          refine outcome_ite (fun _ => ?_) fun _ => ?_
          · exact ⟨Reads.refl lfs, fun tag' htag' => by
              rw [Option.mem_some_iff] at htag'
              exact htag' ▸ hfound⟩
          -- the lookup goes on in the pair `tail`
          have hlookup : ∀ (tail : Pair) (lfs' : Lfs), Reads lfs lfs' →
              Outcome (do
                  let lfs ← get
                  let fetched ← findName (name.take (lfsStrcspn name slash)) (tailFuel lfs) tail
                  match fetched.result with
                  | .found tag =>
                      lfsDirFindGo fuel ⟨fetched.dir, fetched.id, name, found.tag⟩
                        (name.drop (lfsStrcspn name slash)) tag
                  | _ => return ⟨fetched.dir, fetched.id, name, none⟩)
                (fun found' lfs'' => Reads lfs lfs'' ∧
                  ∀ tag' ∈ found'.tag, FoundOnDevice lfs found'.dir tag')
                (fun _ _ => True) lfs' := by
            intro tail lfs' hreads
            rw [outcome_bind, outcome_get, outcome_bind]
            refine (findName_onDevice _ _ _ _).imp ?_ fun _ _ _ => trivial
            rintro fetched lfs'' ⟨hreads', hdevice⟩
            have hdevice : OnDevice lfs fetched.dir.pair.1 := (OnDevice.of_reads hreads).mp hdevice
            have hreads'' := hreads.trans hreads'
            cases fetched.result with
            | found tag =>
                refine (ih _ _ tag lfs'' (Or.inr ((OnDevice.of_reads hreads'').mpr hdevice))).imp ?_
                  fun _ _ _ => trivial
                rintro found' lfs3 ⟨hreads3, hfound'⟩
                exact ⟨hreads''.trans hreads3, fun tag' htag' =>
                  (hfound' tag' htag').imp id (OnDevice.of_reads hreads'').mp⟩
            | noEntry => exact hnone _ _ _ _ hreads''
            | next => exact hnone _ _ _ _ hreads''
          refine outcome_ite (fun _ => trivial) fun _ => ?_
          refine outcome_ite (fun _ => ?_) fun _ => hlookup _ _ (Reads.refl lfs)
          rw [outcome_bind, tryError, outcome_attempt]
          refine (outcome_lfsDirGet _ _ _ lfs).imp (fun attr lfs' h => hlookup _ _ h.2) ?_
          rintro failure lfs' ⟨hreads, ⟨rfl, -⟩ | ⟨rfl, -⟩ | ⟨rfl, -⟩⟩
          · exact hnone _ _ _ _ hreads
          · trivial
          · trivial

/-- A path to a file ends in a pair of the device. -/
theorem lfsDirFind_onDevice {path : Bytes} {lfs lfs' : Lfs} {found : Found} {tag : Tag}
    (hrun : lfsDirFind path lfs = .ok found lfs') (htag : found.tag = some tag)
    (htype : tag.type3 ≠ tyDir) : OnDevice lfs found.dir.pair.1 := by
  have hfind : Outcome (lfsDirFind path)
      (fun found' lfs' => Reads lfs lfs' ∧
        ∀ tag' ∈ found'.tag, FoundOnDevice lfs found'.dir tag')
      (fun _ _ => True) lfs := by
    rw [lfsDirFind]
    refine outcome_ite (fun _ => trivial) fun _ => ?_
    rw [outcome_bind, outcome_get]
    exact lfsDirFindGo_onDevice _ _ _ _ _ (Or.inl rfl)
  exact ((hfind.of_ok hrun).2 tag htag).resolve_left htype

end Littlefs
