import Littlefs.AllocRun
import Littlefs.CtzExtend

/-!
# Trying fresh blocks

A call that needs a block takes one from the allocator, erases and writes it, and takes
another when the device answers `Corrupt`.  Every attempt uses up a part of the countdown
to the next checkpoint, so the attempts end: with a block that took the bytes, for lack of
space, or because an access failed.
-/

namespace Littlefs

open Program SkipLists

/-- How a call on a sound filesystem may fail. -/
def Defeated (base : Lfs) (failure : Fault) : Prop :=
  failure = .error .noSpace ∨ failure = .error .io ∧ ¬Answered base

/-- From `lfs`, `program` ends as `post` says, unless the space or the device gives out. -/
def Completes {α : Type} (base : Lfs) (program : FsM α) (post : α → Lfs → Prop) (lfs : Lfs) :
    Prop :=
  Outcome program post (fun failure _ => Defeated base failure) lfs

namespace Completes

variable {α β : Type} {base lfs : Lfs} {program : FsM α} {post post' : α → Lfs → Prop}

theorem imp (hprogram : Completes base program post lfs)
    (hpost : ∀ value lfs', post value lfs' → post' value lfs') :
    Completes base program post' lfs :=
  Outcome.imp hprogram hpost fun _ _ h => h

theorem bind {next : α → FsM β} {post : β → Lfs → Prop} {between : α → Lfs → Prop}
    (hprogram : Completes base program between lfs)
    (hnext : ∀ value lfs', between value lfs' → Completes base (next value) post lfs') :
    Completes base (program >>= next) post lfs :=
  outcome_bind.mpr (Outcome.imp hprogram hnext fun _ _ h => h)

theorem pure {value : α} (hpost : post value lfs) : Completes base (Pure.pure value) post lfs :=
  hpost

theorem ite {condition : Prop} [Decidable condition] {other : FsM α}
    (hyes : condition → Completes base program post lfs)
    (hno : ¬condition → Completes base other post lfs) :
    Completes base (if condition then program else other) post lfs :=
  outcome_ite hyes hno

theorem get_bind {next : Lfs → FsM α} (hnext : Completes base (next lfs) post lfs) :
    Completes base (get >>= next) post lfs := hnext

theorem modify {update : Lfs → Lfs} {post : PUnit → Lfs → Prop} (hpost : post ⟨⟩ (update lfs)) :
    Completes base (modify update) post lfs := hpost

theorem of_delivers {data : α} {middle : Lfs} (hdelivers : Delivers base program data)
    (hreads : Reads base middle) (hpost : ∀ lfs', Reads base lfs' → post data lfs') :
    Completes base program post middle := by
  apply (hdelivers middle hreads).imp
  · intro value lfs' h
    rw [h.1]
    exact hpost lfs' h.2
  · exact fun _ _ h => Or.inr h.2

end Completes

namespace Defeated

theorem widen {base lfs : Lfs} {failure : Fault} (hsuffix : lfs.script <:+ base.script)
    (hdefeated : Defeated lfs failure) : Defeated base failure :=
  hdefeated.imp id fun h => ⟨h.1, fun hanswered =>
    h.2 fun event hevent => hanswered event (hsuffix.subset hevent)⟩

end Defeated

theorem Completes.widen {α : Type} {base middle lfs : Lfs} {program : FsM α}
    {post : α → Lfs → Prop} (hsuffix : middle.script <:+ base.script)
    (hprogram : Completes middle program post lfs) : Completes base program post lfs :=
  Outcome.imp hprogram (fun _ _ h => h) fun _ _ h => h.widen hsuffix

/-! ## The window -/

variable {used used' : List Block} {lfs lfs' base : Lfs}

theorem AllocInv.mono (hinv : AllocInv used lfs) (hsub : used' ⊆ used) : AllocInv used' lfs where
  valid := hinv.valid
  room := hinv.room
  clear i hnext hsize hbit hblock := hinv.clear i hnext hsize hbit (hsub hblock)

/-- A block that was handed out may come into use. -/
theorem AllocInv.cons (hinv : AllocInv used lfs) {block : Block} (hspent : ¬lfs.Ahead block) :
    AllocInv (block :: used) lfs where
  valid := hinv.valid
  room := hinv.room
  clear i hnext hsize hbit hblock := by
    apply (List.mem_cons.mp hblock).elim _ (hinv.clear i hnext hsize hbit)
    intro heq
    apply hspent
    have hrest := hinv.valid.rest_le
    refine ⟨i - lfs.lookahead.next, by omega, ?_⟩
    rw [← heq, hinv.valid.blockAt_eq hsize.le]
    congr 1
    omega

theorem AllocInv.checkpoint (hinv : AllocInv used lfs) :
    AllocInv used { lfs with lookahead := lfs.lookahead.checkpoint lfs.blockCount } where
  valid :=
    { pos := hinv.valid.pos
      bound := hinv.valid.bound
      start_lt := hinv.valid.start_lt
      next_le := hinv.valid.next_le
      size_le := hinv.valid.size_le
      rest_le := (Nat.sub_le _ _).trans hinv.valid.size_le
      ckpoint_le := le_refl _ }
  room := hinv.room
  clear := hinv.clear

/-- The window does not look at the blocks, the device and the open handles. -/
theorem AllocInv.congr (hinv : AllocInv used lfs) (hlookahead : lfs'.lookahead = lfs.lookahead)
    (hcount : lfs'.blockCount = lfs.blockCount) (hcfg : lfs'.cfg = lfs.cfg) :
    AllocInv used lfs' where
  valid := by
    rw [hlookahead, hcount]
    exact hinv.valid
  room := by
    rw [hcount, hcfg]
    exact hinv.room
  clear := by
    rw [hlookahead, hcount]
    exact hinv.clear

namespace Lookahead

/-- Steps count down. -/
theorem skip_ckpoint_le (fuel : ℕ) {window : Lookahead}
    (hrest : window.size - window.next ≤ window.ckpoint) :
    (window.skip fuel).ckpoint ≤ window.ckpoint := by
  induction fuel generalizing window with
  | zero => exact le_refl _
  | succ fuel ih =>
      rw [skip]
      split
      · rename_i hmarked
        have hpos : window.ckpoint ≠ 0 := by
          have hlt := hmarked.1
          omega
        have hckpoint : window.advance.ckpoint = window.ckpoint - 1 := by
          simp only [advance, wrappingPred, if_neg hpos]
        have hsize : window.advance.size = window.size := rfl
        have hnext : window.advance.next = window.next + 1 := rfl
        have hstep := ih (show window.advance.size - window.advance.next ≤
          window.advance.ckpoint by omega)
        omega
      · exact le_refl _

end Lookahead

/-- A call of the allocator counts down, and where the traversal succeeds, it fails for lack of
space or because of the device only. -/
theorem lfsAllocGo_counts (fuel : ℕ) (hreported : reported lfs = some used)
    (hnext : lfs.lookahead.next ≤ lfs.lookahead.size)
    (hrest : lfs.lookahead.size - lfs.lookahead.next ≤ lfs.lookahead.ckpoint) :
    Outcome (lfsAllocGo fuel)
      (fun _ lfs' => lfs'.lookahead.ckpoint < lfs.lookahead.ckpoint)
      (fun failure _ => failure = .outOfFuel ∨ Defeated lfs failure) lfs := by
  induction fuel generalizing lfs with
  | zero => exact Or.inl rfl
  | succ fuel ih =>
      rw [lfsAllocGo, outcome_bind, outcome_get]
      have hsize := skip_size (lfs.lookahead.size - lfs.lookahead.next) lfs.lookahead
      have hcount := Lookahead.skip_ckpoint_le
        (lfs.lookahead.size - lfs.lookahead.next) hrest
      have hsum := skip_sum (lfs.lookahead.size - lfs.lookahead.next) hrest
      generalize lfs.lookahead.skip (lfs.lookahead.size - lfs.lookahead.next) = window at *
      dsimp only
      apply outcome_ite
      · intro hlt
        rw [outcome_bind, setLookahead, outcome_modify, outcome_pure]
        have hpos : window.ckpoint ≠ 0 := by omega
        have hadvance : window.advance.ckpoint = window.ckpoint - 1 := by
          simp only [Lookahead.advance, wrappingPred, if_neg hpos]
        have hsize' : window.advance.size = window.size := rfl
        have hnext' : window.advance.next = window.next + 1 := rfl
        have heager := Lookahead.skip_ckpoint_le (window.size - window.next)
          (show window.advance.size - window.advance.next ≤ window.advance.ckpoint by omega)
        change (window.advance.skip _).ckpoint < _
        omega
      · intro _
        apply outcome_ite
        · exact fun _ => Or.inr (Or.inl rfl)
        · intro _
          rw [outcome_bind, setLookahead, outcome_modify, outcome_bind]
          have hreported' : reported { lfs with lookahead := window } = some used := by
            rw [← hreported]
            exact reported_congr rfl
          apply ((lfsAllocScan_window (TraversalEnds.of_reported hreported')).and
            (lfsAllocScan_met hreported')).imp
          · intro _ lfs' h
            obtain ⟨⟨hnext', hsize', hckpoint', heq⟩, hmet⟩ := h
            dsimp only at hsize' hckpoint'
            have hreported'' : reported lfs' = some used := by
              rw [← hreported]
              apply reported_congr
              rw [heq]
              rfl
            apply (ih hreported'' (by omega) (by omega)).imp
            · intro _ lfs'' hlt
              omega
            · intro failure _ h
              exact h.imp id fun hdefeated => hdefeated.widen hmet.suffix
          · exact fun failure _ h => Or.inr (Or.inr h.2)

/-- `lfs_alloc` hands out a block and counts down, or the space or the device gives out. -/
theorem lfsAlloc_grants (hreported : reported lfs = some used) (hinv : AllocInv used lfs)
    (hbits : 0 < Lookahead.lookaheadBits lfs.cfg.lookaheadSize) :
    Completes lfs lfsAlloc
      (fun block lfs' => Handed used lfs block lfs' ∧
        lfs'.lookahead.ckpoint < lfs.lookahead.ckpoint) lfs := by
  have hvalid := hinv.valid
  have hends := TraversalEnds.of_reported hreported
  have hcovers : ScanCovers used lfs := by
    apply Reports.scanCovers
    intro blocks hblocks
    rw [hreported] at hblocks
    exact (Option.some.inj hblocks) ▸ List.Subset.refl _
  have hfuel : lfs.lookahead.ckpoint + lfs.lookahead.next - lfs.lookahead.size < retryFuel := by
    have hckpoint := hvalid.ckpoint_le
    have hbound := hvalid.bound
    have hnext := hvalid.next_le
    have hretry : retryFuel = 2 ^ 32 + 2 := rfl
    omega
  have hcounts := lfsAllocGo_counts retryFuel hreported hvalid.next_le hvalid.rest_le
  have hfinite := lfsAllocGo_ends retryFuel hends hbits hvalid.next_le hvalid.rest_le hfuel
  apply ((lfsAlloc_handed hcovers hinv).and (hcounts.and hfinite)).imp
  · exact fun block lfs' h => ⟨h.1, h.2.1⟩
  · exact fun failure lfs' h => h.2.1.resolve_left h.2.2

/-! ## Erasing and programming -/

theorem outcome_lfsBdErase_answered (block : Block) (lfs : Lfs) :
    Outcome (lfsBdErase block) (fun _ lfs' => Wrote block {} lfs lfs')
      (fun failure lfs' => (Reads lfs lfs' ∨ Wrote block {} lfs lfs') ∧
        (failure = .error .corrupt ∨ failure = .error .io ∧ ¬Answered lfs)) lfs := by
  have hfails : Outcome (lfsBdErase block) (fun _ _ => True)
      (fun failure _ => failure = .error .corrupt ∨ failure = .error .io ∧ ¬Answered lfs) lfs := by
    rw [lfsBdErase, outcome_bind, outcome_get, outcome_bind, outcome_nextEvent]
    cases hevent : lfs.script.headD .ok with
    | ok =>
        apply outcome_ite
        · exact fun _ => Or.inl rfl
        · exact fun _ => trivial
    | failed => exact Or.inr ⟨rfl, not_answered_of_head fun h => by cases hevent.symm.trans h⟩
    | failedAfter => exact Or.inr ⟨rfl, not_answered_of_head fun h => by cases hevent.symm.trans h⟩
  exact ((outcome_lfsBdErase block lfs).and hfails).imp (fun _ _ h => h.1) fun _ _ h => h

/-- A program access that succeeds is one on a good block. -/
theorem outcome_progData_answered (block : Block) (off : ℕ) (bytes : Bytes) (lfs : Lfs) :
    Outcome (progData block off bytes)
      (fun _ lfs' => (∃ image, Wrote block image lfs lfs' ∧
        image.data = overwrite (lfs.disk block).data off bytes) ∧ lfs.progBad block = false)
      (fun failure lfs' => (∃ image, Wrote block image lfs lfs') ∧
        (failure = .error .corrupt ∧ lfs.progBad block = true ∨
          failure = .error .io ∧ ¬Answered lfs)) lfs := by
  have hfails : Outcome (progData block off bytes) (fun _ _ => lfs.progBad block = false)
      (fun failure _ => failure = .error .corrupt ∧ lfs.progBad block = true ∨
        failure = .error .io ∧ ¬Answered lfs) lfs := by
    rw [progData, outcome_bind, outcome_get, devProg, outcome_bind, outcome_get, outcome_bind,
      outcome_nextEvent]
    cases hevent : lfs.script.headD .ok with
    | ok =>
        apply outcome_ite
        · exact fun hbad => Or.inl ⟨rfl, hbad⟩
        · exact fun hgood => Bool.eq_false_iff.mpr hgood
    | failed => exact Or.inr ⟨rfl, not_answered_of_head fun h => by cases hevent.symm.trans h⟩
    | failedAfter => exact Or.inr ⟨rfl, not_answered_of_head fun h => by cases hevent.symm.trans h⟩
  exact ((outcome_progData block off bytes lfs).and hfails).imp (fun _ _ h => h) fun _ _ h => h

/-! ## Attempts -/

/-- `base`, while fresh blocks are tried. -/
structure Trying (used : List Block) (base lfs : Lfs) : Prop extends Extending used base lfs where
  suffix : lfs.script <:+ base.script

namespace Trying

variable {block : Block}

theorem start (hinv : AllocInv used base) : Trying used base base where
  eq := rfl
  agree := fun _ _ => rfl
  inv := hinv
  suffix := List.suffix_rfl

theorem reported (htrying : Trying used base lfs) (hreported : Littlefs.reported base = some used) :
    Littlefs.reported lfs = some used := by
  rw [← reported_withDisk hreported htrying.agree]
  apply reported_congr
  have heq := htrying.eq
  rw [heq]
  rfl

theorem alloc (htrying : Trying used base lfs) (hhanded : Handed used lfs block lfs') :
    Trying used base lfs' where
  toExtending := htrying.toExtending.alloc hhanded
  suffix := hhanded.step.suffix.trans htrying.suffix

theorem reads (htrying : Trying used base lfs) (hreads : Reads lfs lfs') :
    Trying used base lfs' where
  toExtending := htrying.toExtending.reads hreads
  suffix := hreads.suffix.trans htrying.suffix

theorem wrote (htrying : Trying used base lfs) {image : BlockImage} (hfree : block ∉ used)
    (hwrote : Wrote block image lfs lfs') : Trying used base lfs' where
  toExtending := htrying.toExtending.wrote hfree hwrote
  suffix := hwrote.suffix.trans htrying.suffix

theorem marks (htrying : Trying used base lfs) (hmarks : Marks lfs lfs') :
    Trying used base lfs' where
  toExtending := htrying.toExtending.marks hmarks
  suffix := hmarks.suffix.trans htrying.suffix

theorem progBad (htrying : Trying used base lfs) : lfs.progBad = base.progBad := by
  have heq := htrying.eq
  rw [heq]

theorem blockCount (htrying : Trying used base lfs) : lfs.blockCount = base.blockCount := by
  have heq := htrying.eq
  rw [heq]

end Trying

/-- `base`, with `nblock` handed out for the bytes to be written. -/
structure Granted (used : List Block) (base : Lfs) (nblock : Block) (lfs : Lfs) : Prop
    extends Trying used base lfs where
  lt : nblock < base.blockCount
  free : nblock ∉ used
  held : AllocInv (nblock :: used) lfs

namespace Granted

variable {nblock : Block}

theorem reads (hgranted : Granted used base nblock lfs) (hreads : Reads lfs lfs') :
    Granted used base nblock lfs' where
  toTrying := hgranted.toTrying.reads hreads
  lt := hgranted.lt
  free := hgranted.free
  held := hgranted.held.congr (by rw [hreads.eq]) (by rw [hreads.eq]) (by rw [hreads.eq])

theorem wrote (hgranted : Granted used base nblock lfs) {image : BlockImage}
    (hwrote : Wrote nblock image lfs lfs') : Granted used base nblock lfs' where
  toTrying := hgranted.toTrying.wrote hgranted.free hwrote
  lt := hgranted.lt
  free := hgranted.free
  held := hgranted.held.congr (by rw [hwrote.eq]) (by rw [hwrote.eq]) (by rw [hwrote.eq])

end Granted

section

variable {α : Type} {retry : FsM α} {post : α → Lfs → Prop}

/-- A block is marked as bad, and another one is tried. -/
theorem completes_retry (nblock : Block) (htrying : Trying used base lfs) {bound : ℕ}
    (hbound : lfs.lookahead.ckpoint < bound)
    (hretry : ∀ lfs', Trying used base lfs' → lfs'.lookahead.ckpoint < bound →
      Completes base retry post lfs') :
    Completes base (do
      lfsAllocLookahead nblock
      retry) post lfs := by
  apply outcome_bind.mpr
  apply (outcome_lfsAllocLookahead nblock lfs).imp
  · intro _ lfs' h
    have hckpoint : lfs'.lookahead.ckpoint = lfs.lookahead.ckpoint := by rw [h.1.eq]
    exact hretry lfs' (htrying.marks h.1) (hckpoint ▸ hbound)
  · exact fun _ _ h => h.elim

/-- A fresh block is erased, or another one is tried. -/
theorem completes_fresh {erased : Block → FsM α} (hreported : reported base = some used)
    (hbits : 0 < Lookahead.lookaheadBits base.cfg.lookaheadSize) (htrying : Trying used base lfs)
    (hretry : ∀ lfs', Trying used base lfs' → lfs'.lookahead.ckpoint < lfs.lookahead.ckpoint →
      Completes base retry post lfs')
    (herased : ∀ nblock lfs', Granted used base nblock lfs' →
      lfs'.lookahead.ckpoint < lfs.lookahead.ckpoint → (lfs'.disk nblock).data = [] →
        Completes base (erased nblock) post lfs') :
    Completes base (do
      let nblock ← lfsAlloc
      match ← tryError (lfsBdErase nblock) with
      | .error .corrupt =>
          lfsAllocLookahead nblock
          retry
      | .error e => failWith e
      | .ok _ => erased nblock) post lfs := by
  have hgrants := lfsAlloc_grants (htrying.reported hreported) htrying.inv
    (by rw [htrying.cfg]; exact hbits)
  apply (hgrants.widen htrying.suffix).bind
  intro nblock middle h
  obtain ⟨hhanded, hcount⟩ := h
  have hgranted : Granted used base nblock middle :=
    { toTrying := htrying.alloc hhanded
      lt := htrying.blockCount ▸ hhanded.lt
      free := hhanded.free
      held := hhanded.inv.cons hhanded.spent }
  apply outcome_bind.mpr
  apply (outcome_lfsBdErase_answered nblock middle).tryError
  · intro _ lfs' hwrote
    have hckpoint : lfs'.lookahead.ckpoint = middle.lookahead.ckpoint := by rw [hwrote.eq]
    apply herased nblock lfs' (hgranted.wrote hwrote) (hckpoint ▸ hcount)
    rw [hwrote.eq]
    dsimp only
    rw [Function.update_self]
  · intro e lfs' h
    obtain ⟨hstate, hfails⟩ := h
    have hafter : Granted used base nblock lfs' := hstate.elim hgranted.reads hgranted.wrote
    have hckpoint : lfs'.lookahead.ckpoint = middle.lookahead.ckpoint :=
      hstate.elim (fun hreads => by rw [hreads.eq]) fun hwrote => by rw [hwrote.eq]
    apply hfails.elim
    · intro hcorrupt
      cases hcorrupt
      exact completes_retry nblock hafter.toTrying (hckpoint ▸ hcount) hretry
    · intro hio
      obtain ⟨heq, hanswered⟩ := hio
      cases heq
      have hdefeated : Defeated middle (.error .io) := Or.inr ⟨rfl, hanswered⟩
      exact hdefeated.widen hgranted.suffix
  · intro fault lfs' hfault h
    exact h.2.elim (fun heq => absurd heq (hfault _)) fun hio => absurd hio.1 (hfault _)

/-- The bytes go to a fresh block, or another one is tried. -/
theorem completes_prog {nblock : Block} {bytes : Bytes} {written : FsM α}
    (hgranted : Granted used base nblock lfs) (herased : (lfs.disk nblock).data = [])
    {bound : ℕ} (hbound : lfs.lookahead.ckpoint < bound)
    (hretry : ∀ lfs', Trying used base lfs' → lfs'.lookahead.ckpoint < bound →
      Completes base retry post lfs')
    (hwritten : ∀ lfs', Granted used base nblock lfs' → base.progBad nblock = false →
      diskBytes lfs'.disk nblock = bytes → Completes base written post lfs') :
    Completes base (do
      match ← tryError (progData nblock 0 bytes) with
      | .error .corrupt =>
          lfsAllocLookahead nblock
          retry
      | .error e => failWith e
      | .ok _ => written) post lfs := by
  apply outcome_bind.mpr
  apply (outcome_progData_answered nblock 0 bytes lfs).tryError
  · intro _ lfs' h
    obtain ⟨⟨image, hwrote, hdata⟩, hgood⟩ := h
    apply hwritten lfs' (hgranted.wrote hwrote) (hgranted.progBad ▸ hgood)
    rw [diskBytes, hwrote.eq]
    dsimp only
    rw [Function.update_self, hdata, herased, overwrite_nil]
  · intro e lfs' h
    obtain ⟨⟨image, hwrote⟩, hfails⟩ := h
    have hckpoint : lfs'.lookahead.ckpoint = lfs.lookahead.ckpoint := by rw [hwrote.eq]
    apply hfails.elim
    · intro hcorrupt
      obtain ⟨heq, -⟩ := hcorrupt
      cases heq
      exact completes_retry nblock (hgranted.wrote hwrote).toTrying (hckpoint ▸ hbound) hretry
    · intro hio
      obtain ⟨heq, hanswered⟩ := hio
      cases heq
      have hdefeated : Defeated lfs (.error .io) := Or.inr ⟨rfl, hanswered⟩
      exact hdefeated.widen hgranted.suffix
  · intro fault lfs' hfault h
    exact h.2.elim (fun heq => absurd heq.1 (hfault _)) fun hio => absurd hio.1 (hfault _)

end

/-! ## Extending a block list -/

section

variable {blocks : ℕ → Block} {size : ℕ}

theorem lfsCtzExtendGo_grants (hblock : 128 ≤ base.cfg.blockSize) (hsize : size < 2 ^ 32)
    (hreported : reported base = some used)
    (hbits : 0 < Lookahead.lookaheadBits base.cfg.lookaheadSize)
    (hlist : 0 < size → CtzList (diskBytes base.disk) blocks
      (lfsCtzIndex base.cfg.blockSize (size - 1)).1)
    (hused : 0 < size → ∀ i ≤ (lfsCtzIndex base.cfg.blockSize (size - 1)).1,
      blocks i ∈ used ∧ OnDevice base (blocks i))
    (fuel : ℕ) (hfuel : lfs.lookahead.ckpoint < fuel) (htrying : Trying used base lfs) :
    Completes base
      (lfsCtzExtendGo (blocks (lfsCtzIndex base.cfg.blockSize (size - 1)).1) size fuel)
      (fun result lfs' => Granted used base result.1 lfs' ∧
        (0 < size → base.progBad result.1 = false)) lfs := by
  induction fuel generalizing lfs with
  | zero => exact absurd hfuel (Nat.not_lt_zero _)
  | succ fuel ih =>
      rw [lfsCtzExtendGo]
      apply completes_fresh hreported hbits htrying
      · exact fun lfs' htrying hcount => ih (by omega) htrying
      · intro nblock middle hgranted hcount herased
        by_cases hzero : size = 0
        · rw [if_pos hzero]
          exact Completes.pure ⟨hgranted, fun hpos => absurd hpos (by omega)⟩
        · have hpos : 0 < size := Nat.pos_of_ne_zero hzero
          have hbound : middle.lookahead.ckpoint < lfs.lookahead.ckpoint := hcount
          have hretry : ∀ lfs', Trying used base lfs' →
              lfs'.lookahead.ckpoint < lfs.lookahead.ckpoint → Completes base
                (lfsCtzExtendGo (blocks (lfsCtzIndex base.cfg.blockSize (size - 1)).1) size fuel)
                (fun result lfs' => Granted used base result.1 lfs' ∧
                  (0 < size → base.progBad result.1 = false)) lfs' :=
            fun lfs' htrying hcount => ih (by omega) htrying
          have hsame : ∀ block ∈ used, middle.disk block = base.disk block := hgranted.agree
          have hdevice : ∀ i ≤ (lfsCtzIndex base.cfg.blockSize (size - 1)).1,
              OnDevice middle (blocks i) := fun i hi => hgranted.device (hused hpos i hi).2
          rw [if_neg hzero]
          apply Completes.get_bind
          rw [hgranted.cfg]
          obtain ⟨last, off, hat⟩ := exists_ctzAt hblock (show size - 1 < 2 ^ 32 by omega)
          rw [lfsCtzIndex_eq hat (by omega)] at hlist hused hretry hdevice ⊢
          dsimp only at hlist hused hretry hdevice ⊢
          apply Completes.ite
          · intro _
            -- the last block is incomplete: its copy replaces it
            have hread := (delivers_readBlock (hdevice last (le_refl _))) middle (Reads.refl middle)
            apply Completes.bind (hread.imp (fun _ _ h => h) fun _ _ h =>
              (show Defeated middle _ from Or.inr h.2).widen hgranted.suffix)
            intro image after h
            have hafter := hgranted.reads h.2
            apply completes_prog hafter (by rw [h.2.eq]; exact herased)
              (by rw [h.2.eq]; exact hbound) hretry
            exact fun lfs' hwritten hgood _ => Completes.pure ⟨hwritten, fun _ => hgood⟩
          · intro _
            have hcount' := succ_lt_ctzCount hat (by omega)
            have hword : last + 1 < 2 ^ 32 := lt_trans hcount' (by norm_num [ctzCount])
            have hlist' : CtzList (diskBytes middle.disk) blocks last := by
              constructor
              intro i hi hpos' k hk
              rw [diskBytes, hsame _ (hused hpos i hi).1]
              exact (hlist hpos).pointer i hi hpos' k hk
            have hladder := delivers_ctzPointers hlist' hdevice hword
              (show 0 + (lfsCtz (last + 1) + 1) ≤ twos (last + 1) + 1 by
                rw [lfsCtz_eq (by omega) hword]
                omega)
            apply Completes.bind ((hladder middle (Reads.refl middle)).imp (fun _ _ h => h)
              fun _ _ h => (show Defeated middle _ from Or.inr h.2).widen hgranted.suffix)
            intro pointers after h
            have hafter := hgranted.reads h.2
            apply completes_prog hafter (by rw [h.2.eq]; exact herased)
              (by rw [h.2.eq]; exact hbound) hretry
            exact fun lfs' hwritten hgood _ => Completes.pure ⟨hwritten, fun _ => hgood⟩

/-- The block that `lfs_ctz_extend` returns is fresh, and the list goes on in it. -/
theorem lfsCtzExtend_grants (hblock : 128 ≤ lfs.cfg.blockSize) (hsize : size < 2 ^ 32)
    (hreported : reported lfs = some used) (hinv : AllocInv used lfs)
    (hbits : 0 < Lookahead.lookaheadBits lfs.cfg.lookaheadSize)
    (hlist : 0 < size → CtzList (diskBytes lfs.disk) blocks
      (lfsCtzIndex lfs.cfg.blockSize (size - 1)).1)
    (hused : 0 < size → ∀ i ≤ (lfsCtzIndex lfs.cfg.blockSize (size - 1)).1,
      blocks i ∈ used ∧ OnDevice lfs (blocks i)) :
    Completes lfs (lfsCtzExtend (blocks (lfsCtzIndex lfs.cfg.blockSize (size - 1)).1) size)
      (fun result lfs' => Granted used lfs result.1 lfs' ∧
        (0 < size → lfs.progBad result.1 = false) ∧
        GoesOn lfs.cfg.blockSize used (diskBytes lfs.disk) blocks size result.1 result.2
          (diskBytes lfs'.disk result.1)) lfs := by
  have hfuel : lfs.lookahead.ckpoint < retryFuel := by
    have hckpoint := hinv.valid.ckpoint_le
    have hbound := hinv.valid.bound
    have hretry : retryFuel = 2 ^ 32 + 2 := rfl
    omega
  have hgrants := lfsCtzExtendGo_grants hblock hsize hreported hbits hlist hused retryFuel hfuel
    (Trying.start hinv)
  have hextends := lfsCtzExtendGo_extends hblock hsize hreported hlist hused retryFuel
    (Trying.start hinv).toExtending
  apply (hgrants.and hextends).imp
  · exact fun result lfs' h => ⟨h.1.1, h.1.2, h.2.2⟩
  · exact fun _ _ h => h.1

end

end Littlefs
