import Littlefs.Scan
import Littlefs.Lib.Cycles

/-!
# Loops over the tail list

Mounting, traversing and the searches for a predecessor and a parent all follow
tails from the superblock pair, whatever the device holds there.  The next tail
depends on the block that is current in a pair, so a list that does not end
comes back to a tail, and the tortoise meets it.
-/

namespace Littlefs

open Program Cycles

/-! ## The tails of a device -/

section

variable (disk : Block → BlockImage) (blockCount : ℕ)

/-- The tail behind `tail`, where a fetch gets there. -/
def nextTail (tail : Pair) : Option Pair :=
  if lfsPairIsnull tail || outOfRange blockCount tail then none
  else (locate disk tail).map fun pair => (mdirOf disk pair).tail

/-- The tails from the superblock pair, one after the other. -/
def tailAt : ℕ → Option Pair := follow (nextTail disk blockCount) (0, 1)

/-- The list reaches its end. -/
def ListEnds : Prop := ∃ k tail, tailAt disk blockCount k = some tail ∧ lfsPairIsnull tail = true

/-- Following tails comes back to a tail, with the blocks in the same order. -/
def ComesBack : Prop := Returns (nextTail disk blockCount) (0, 1)

/-- The pairs on the list are pairwise different. -/
def PairsDiffer : Prop :=
  ∀ k l tail tail', k < l → tailAt disk blockCount k = some tail →
    tailAt disk blockCount l = some tail' → lfsPairIsnull tail' = false →
      lfsPairIssync tail' tail = false

/-- The tail and the tortoise at the start of a turn, as long as the walk goes on. -/
def passAt : ℕ → Option (Pair × Tortoise)
  | 0 => some ((0, 1), {})
  | k + 1 => (passAt k).bind fun (tail, tortoise) =>
      (lfsTortoiseDetectcycles tail tortoise).bind fun tortoise =>
        (nextTail disk blockCount tail).map fun tail => (tail, tortoise)

end

variable {disk : Block → BlockImage} {blockCount : ℕ}

theorem nextTail_eq_some {tail tail' : Pair} :
    nextTail disk blockCount tail = some tail' ↔ lfsPairIsnull tail = false ∧
      outOfRange blockCount tail = false ∧
        ∃ pair, locate disk tail = some pair ∧ (mdirOf disk pair).tail = tail' := by
  rw [nextTail]
  split_ifs with hstop
  · simp only [Bool.or_eq_true] at hstop
    simp only [false_iff, not_and]
    intro hnull hrange
    simp [hnull, hrange] at hstop
  · simp only [Bool.or_eq_true, not_or, Bool.not_eq_true] at hstop
    simp [hstop.1, hstop.2]

/-- What a fetch of `tail` leads to. -/
theorem nextTail_of_fetchmatch {gdisk : Gstate} {cb : Attr → Option Ordering} {tail : Pair}
    {fetched : Fetched} (hnull : lfsPairIsnull tail = false)
    (hfetched : fetchmatch disk blockCount gdisk cb tail = .ok fetched) :
    nextTail disk blockCount tail = some fetched.dir.tail := by
  obtain ⟨hrange, pair, hlocate, hdir⟩ := fetchmatch_ok hfetched
  rw [hdir]
  exact nextTail_eq_some.mpr ⟨hnull, hrange, pair, hlocate, rfl⟩

theorem tailAt_succ {k : ℕ} {tail tail' : Pair} (htail : tailAt disk blockCount k = some tail)
    (hnext : nextTail disk blockCount tail = some tail') :
    tailAt disk blockCount (k + 1) = some tail' := by
  rw [tailAt, follow, show follow _ _ k = some tail from htail]
  exact hnext

theorem tailAt_none_of_le {k l : ℕ} (hle : k ≤ l) (hnone : tailAt disk blockCount k = none) :
    tailAt disk blockCount l = none :=
  follow_none_of_le hle hnone

theorem passAt_succ {k : ℕ} {tail tail' : Pair} {tortoise moved : Tortoise}
    (hpass : passAt disk blockCount k = some (tail, tortoise))
    (hdetect : lfsTortoiseDetectcycles tail tortoise = some moved)
    (hnext : nextTail disk blockCount tail = some tail') :
    passAt disk blockCount (k + 1) = some (tail', moved) := by
  rw [passAt, hpass, Option.bind_some]
  dsimp only
  rw [hdetect, Option.bind_some, hnext, Option.map_some]

theorem passAt_none_of_le {k l : ℕ} (hle : k ≤ l) (hnone : passAt disk blockCount k = none) :
    passAt disk blockCount l = none := by
  induction l, hle using Nat.le_induction with
  | base => exact hnone
  | succ l _ ih =>
      rw [passAt, ih]
      rfl

/-- The block that is current in a pair. -/
def currentBlock (disk : Block → BlockImage) (pair : Pair) : Block :=
  ((locate disk pair).map Prod.fst).getD 0

theorem currentBlock_lt {pair found : Pair} (hrange : outOfRange blockCount pair = false)
    (hlocate : locate disk pair = some found) (hcount : blockCount ≠ 0) :
    currentBlock disk pair < blockCount := by
  have hblocks : pair.1 < blockCount ∧ pair.2 < blockCount := by
    simpa [outOfRange, hcount] using hrange
  rw [currentBlock, hlocate, Option.map_some, Option.getD_some]
  apply (locate_eq_or_swap hlocate).elim
  · intro h
    rw [h]
    exact hblocks.1
  · intro h
    rw [h]
    exact hblocks.2

/-- A pair leads where its current block leads. -/
theorem tail_of_currentBlock {pair found : Pair} (hlocate : locate disk pair = some found) :
    (mdirOf disk found).tail =
      (mdirOf disk (currentBlock disk pair, currentBlock disk pair)).tail := by
  rw [currentBlock, hlocate]
  rfl

/-! ## The tortoise -/

/-- A list that comes back to a tail never ends. -/
theorem ComesBack.exists_tail (hback : ComesBack disk blockCount) (k : ℕ) :
    ∃ tail, tailAt disk blockCount k = some tail ∧ lfsPairIsnull tail = false := by
  obtain ⟨tail, htail⟩ := Option.ne_none_iff_exists'.mp (hback.follow_ne_none k)
  refine ⟨tail, htail, ?_⟩
  cases hnull : lfsPairIsnull tail with
  | false => rfl
  | true =>
      apply absurd _ (hback.follow_ne_none (k + 1))
      rw [follow, htail, Option.bind_some, nextTail, hnull]
      rfl

theorem ComesBack.not_listEnds (hback : ComesBack disk blockCount) : ¬ListEnds disk blockCount := by
  rintro ⟨k, tail, htail, hnull⟩
  obtain ⟨tail', htail', hnull'⟩ := hback.exists_tail k
  rw [htail] at htail'
  cases htail'
  rw [hnull] at hnull'
  cases hnull'

/-- Following the tails of pairs for more steps than there are blocks comes back to a tail. -/
theorem exists_tail_return {next : Pair → Option Pair} {start : Pair} (hcount : blockCount ≠ 0)
    (hnext : ∀ tail tail', next tail = some tail' → outOfRange blockCount tail = false ∧
      ∃ found, locate disk tail = some found ∧ (mdirOf disk found).tail = tail')
    (hlong : follow next start (blockCount + 1) ≠ none) :
    ∃ k l tail, k < l ∧ l ≤ blockCount + 1 ∧ follow next start k = some tail ∧
      follow next start l = some tail := by
  have hsite : ∀ tail tail', next tail = some tail' → currentBlock disk tail < blockCount ∧
      tail' = (mdirOf disk (currentBlock disk tail, currentBlock disk tail)).tail := by
    intro tail tail' htail
    obtain ⟨hrange, found, hlocate, hfound⟩ := hnext tail tail' htail
    exact ⟨currentBlock_lt hrange hlocate hcount, hfound ▸ tail_of_currentBlock hlocate⟩
  apply exists_return (fun tail tail' htail => (hsite tail tail' htail).1) _ hlong
  intro tail other htail hother hsame
  obtain ⟨tail', htail'⟩ := Option.ne_none_iff_exists'.mp htail
  obtain ⟨other', hother'⟩ := Option.ne_none_iff_exists'.mp hother
  rw [htail', hother', (hsite _ _ htail').2, (hsite _ _ hother').2, hsame]

/-- As long as the walk goes on, the tortoise is the mark of the tails it passes. -/
theorem passAt_eq {k : ℕ} {tail : Pair} {tortoise : Tortoise}
    (hpass : passAt disk blockCount k = some (tail, tortoise)) :
    tailAt disk blockCount k = some tail ∧
      markAt 32 (blockNull, blockNull) (fun k => (tailAt disk blockCount k).getD (0, 1)) k =
        { value := tortoise.pair, i := tortoise.i, period := tortoise.period } := by
  induction k generalizing tail tortoise with
  | zero =>
      cases hpass
      exact ⟨rfl, rfl⟩
  | succ k ih =>
      rw [passAt] at hpass
      obtain ⟨⟨before, mark⟩, hbefore, hpass⟩ := Option.bind_eq_some_iff.mp hpass
      obtain ⟨moved, hmoved, hpass⟩ := Option.bind_eq_some_iff.mp hpass
      obtain ⟨after, hafter, heq⟩ := Option.map_eq_some_iff.mp hpass
      cases heq
      obtain ⟨htail, hmark⟩ := ih hbefore
      refine ⟨tailAt_succ htail hafter, ?_⟩
      rw [markAt, hmark, htail, Option.getD_some, Mark.step]
      rw [lfsTortoiseDetectcycles] at hmoved
      split_ifs at hmoved ⊢ <;> cases hmoved <;> rfl

theorem lfsPairIssync_self (pair : Pair) : lfsPairIssync pair pair = true := by
  simp [lfsPairIssync]

/-- Whatever is on the device, the walk stops. -/
theorem passAt_stops (hcount : blockCount ≠ 0) (hword : blockCount < 2 ^ 32) :
    passAt disk blockCount (5 * (blockCount + 1) + 1) = none := by
  by_contra hgoes
  obtain ⟨⟨tail, tortoise⟩, hpass⟩ := Option.ne_none_iff_exists'.mp hgoes
  have hlong : tailAt disk blockCount (blockCount + 1) ≠ none := by
    intro h
    have hnone := tailAt_none_of_le (show blockCount + 1 ≤ 5 * (blockCount + 1) + 1 by omega) h
    rw [(passAt_eq hpass).1] at hnone
    cases hnone
  obtain ⟨first, again, value, hlt, hle, hfirst, hagain⟩ :=
    exists_tail_return hcount (fun _ _ h => (nextTail_eq_some.mp h).2) hlong
  let walk : ℕ → Pair := fun k => (tailAt disk blockCount k).getD (0, 1)
  have hround : GoesRound walk first (again - first) := by
    have htails : GoesRound (tailAt disk blockCount) first (again - first) :=
      follow_goesRound hlt hfirst hagain
    exact ⟨htails.pos, fun k hk => congrArg (·.getD (0, 1)) (htails.again k hk)⟩
  have hmeets : ∃ k ≤ 5 * (blockCount + 1),
      walk k = (markAt 32 (blockNull, blockNull) walk k).value :=
    hround.exists_meet (by omega) (by norm_num) (by omega)
  obtain ⟨k, hk, hmeet⟩ := hmeets
  cases hhere : passAt disk blockCount k with
  | none =>
      rw [passAt_none_of_le (by omega) hhere] at hpass
      cases hpass
  | some here =>
      obtain ⟨tail', tortoise'⟩ := here
      have hstop : passAt disk blockCount (k + 1) = none := by
        obtain ⟨htail, hmark⟩ := passAt_eq hhere
        have hsync : lfsPairIssync tail' tortoise'.pair = true := by
          have hwalk : walk k = tail' := by simp only [walk, htail, Option.getD_some]
          rw [← hwalk, hmeet, hmark]
          exact lfsPairIssync_self _
        rw [passAt, hhere, Option.bind_some]
        dsimp only
        rw [lfsTortoiseDetectcycles, if_pos hsync, Option.bind_none]
      rw [passAt_none_of_le (by omega) hstop] at hpass
      cases hpass

/-- On a list of different pairs the tortoise is always on another one. -/
theorem passAt_apart (hdiffer : PairsDiffer disk blockCount) {k : ℕ} {tail : Pair}
    {tortoise : Tortoise} (hpass : passAt disk blockCount k = some (tail, tortoise))
    (hnull : lfsPairIsnull tail = false) : lfsPairIssync tail tortoise.pair = false := by
  obtain ⟨htail, hmark⟩ := passAt_eq hpass
  let walk : ℕ → Pair := fun k => (tailAt disk blockCount k).getD (0, 1)
  have hvalue : (markAt 32 (blockNull, blockNull) walk k).value = (blockNull, blockNull) ∨
      ∃ earlier < k, (markAt 32 (blockNull, blockNull) walk k).value = walk earlier :=
    markAt_value k
  rw [hmark] at hvalue
  apply hvalue.elim
  · intro hstart
    have hblocks : tail.1 ≠ blockNull ∧ tail.2 ≠ blockNull := by
      simpa [lfsPairIsnull] using hnull
    rw [show tortoise.pair = (blockNull, blockNull) from hstart]
    simp [lfsPairIssync, hblocks.1, hblocks.2]
  · rintro ⟨earlier, hlt, hearlier⟩
    cases hvisited : tailAt disk blockCount earlier with
    | none =>
        rw [tailAt_none_of_le hlt.le hvisited] at htail
        cases htail
    | some visited =>
        have hpair : tortoise.pair = visited := by
          rw [show tortoise.pair = walk earlier from hearlier]
          simp only [walk, hvisited, Option.getD_some]
        rw [hpair]
        exact hdiffer earlier k visited tail hlt hvisited htail hnull

/-! ## The loops -/

section

variable {α β : Type} (detect : Pair → Tortoise → Option Tortoise) (atEnd : α → FsM β)
  (turn : α → Pair → FsM (β ⊕ α × Pair))

/-- The loops over the tail list have one shape: a check for the end, a check for
cycles and a turn that answers or goes on with another tail. -/
def tailLoop : ℕ → Pair → Tortoise → α → FsM β
  | 0, _, _, _ => throw .outOfFuel
  | fuel + 1, tail, tortoise, acc =>
      if lfsPairIsnull tail then
        atEnd acc
      else
        match detect tail tortoise with
        | none => failWith .corrupt
        | some tortoise => do
            match ← turn acc tail with
            | .inl value => return value
            | .inr (acc, tail) => tailLoop fuel tail tortoise acc

end

/-- No check for cycles. -/
def unchecked (_ : Pair) (tortoise : Tortoise) : Option Tortoise := some tortoise

section

variable {α β : Type} {inv : Lfs → Prop} {answer : β → Lfs → Prop} {fails : Fault → Prop}
  {atEnd : α → FsM β} {turn : α → Pair → FsM (β ⊕ α × Pair)}

/-- A turn answers, or it goes on behind the tail it was given. -/
def Follows (disk : Block → BlockImage) (blockCount : ℕ) (inv : Lfs → Prop)
    (answer : β → Lfs → Prop) (fails : Fault → Prop) (turn : α → Pair → FsM (β ⊕ α × Pair)) :
    Prop :=
  ∀ k acc tail lfs, inv lfs → tailAt disk blockCount k = some tail →
    lfsPairIsnull tail = false →
      Outcome (turn acc tail)
        (fun result lfs' => match result with
          | .inl value => answer value lfs'
          | .inr (_, tail') => inv lfs' ∧ nextTail disk blockCount tail = some tail')
        (fun failure _ => fails failure) lfs

/-- What the loop does where the list ends. -/
def Finishes (disk : Block → BlockImage) (blockCount : ℕ) (inv : Lfs → Prop)
    (answer : β → Lfs → Prop) (fails : Fault → Prop) (atEnd : α → FsM β) : Prop :=
  ∀ acc lfs, inv lfs → ListEnds disk blockCount →
    Outcome (atEnd acc) answer (fun failure _ => fails failure) lfs

theorem tailLoop_outcome (hcorrupt : fails (.error .corrupt))
    (hfollows : Follows disk blockCount inv answer fails turn)
    (hfinishes : Finishes disk blockCount inv answer fails atEnd) {fuel k : ℕ} {tail : Pair}
    {tortoise : Tortoise} {acc : α} {lfs : Lfs} (hinv : inv lfs)
    (hpass : passAt disk blockCount k = some (tail, tortoise))
    (hstops : passAt disk blockCount (k + fuel) = none) :
    Outcome (tailLoop lfsTortoiseDetectcycles atEnd turn fuel tail tortoise acc) answer
      (fun failure _ => fails failure) lfs := by
  induction fuel generalizing k tail tortoise acc lfs with
  | zero =>
      rw [add_zero, hpass] at hstops
      cases hstops
  | succ fuel ih =>
      have htail := (passAt_eq hpass).1
      rw [tailLoop]
      apply outcome_ite
      · intro hnull
        exact hfinishes acc lfs hinv ⟨k, tail, htail, hnull⟩
      · intro hnull
        cases hdetect : lfsTortoiseDetectcycles tail tortoise with
        | none => exact hcorrupt
        | some moved =>
            dsimp only
            rw [outcome_bind]
            apply (hfollows k acc tail lfs hinv htail (by simpa using hnull)).imp
            · intro result lfs' hresult
              cases result with
              | inl value => exact hresult
              | inr next =>
                  obtain ⟨acc', tail'⟩ := next
                  obtain ⟨hinv', hnext⟩ := hresult
                  apply ih hinv' (passAt_succ hpass hdetect hnext)
                  rwa [add_assoc, add_comm 1]
            · exact fun _ _ h => h

/-- A loop with enough fuel ends by itself, and it reports `Corrupt` where the
list neither ends nor lets a turn answer. -/
theorem tailLoop_ends (hcount : blockCount ≠ 0) (hword : blockCount < 2 ^ 32)
    (hcorrupt : fails (.error .corrupt))
    (hfollows : Follows disk blockCount inv answer fails turn)
    (hfinishes : Finishes disk blockCount inv answer fails atEnd) {fuel : ℕ}
    (hfuel : walkFuel blockCount ≤ fuel) (acc : α) {lfs : Lfs} (hinv : inv lfs) :
    Outcome (tailLoop lfsTortoiseDetectcycles atEnd turn fuel (0, 1) {} acc) answer
      (fun failure _ => fails failure) lfs := by
  apply tailLoop_outcome hcorrupt hfollows hfinishes hinv (show passAt _ _ 0 = _ from rfl)
  apply passAt_none_of_le _ (passAt_stops hcount hword)
  rw [walkFuel] at hfuel
  nlinarith

/-- Where the pairs on the list differ, the check for cycles makes no difference. -/
theorem tailLoop_eq_unchecked (hdiffer : PairsDiffer disk blockCount)
    (hfollows : Follows disk blockCount inv answer fails turn) {fuel k : ℕ} {tail : Pair}
    {tortoise tortoise' : Tortoise} {acc : α} {lfs : Lfs} (hinv : inv lfs)
    (hpass : passAt disk blockCount k = some (tail, tortoise)) :
    tailLoop lfsTortoiseDetectcycles atEnd turn fuel tail tortoise acc lfs =
      tailLoop unchecked atEnd turn fuel tail tortoise' acc lfs := by
  induction fuel generalizing k tail tortoise tortoise' acc lfs with
  | zero => rfl
  | succ fuel ih =>
      have htail := (passAt_eq hpass).1
      rw [tailLoop, tailLoop]
      cases hnull : lfsPairIsnull tail with
      | true => rfl
      | false =>
          have hapart := passAt_apart hdiffer hpass hnull
          cases hdetect : lfsTortoiseDetectcycles tail tortoise with
          | none =>
              rw [lfsTortoiseDetectcycles, if_neg (by simp [hapart])] at hdetect
              split at hdetect <;> cases hdetect
          | some moved =>
              dsimp only [unchecked]
              rw [if_neg (by simp), if_neg (by simp)]
              have hturn := hfollows k acc tail lfs hinv htail hnull
              unfold Outcome at hturn
              cases hrun : turn acc tail lfs with
              | error failure lfs' =>
                  rw [bind_eq_error.mpr (.inl hrun), bind_eq_error.mpr (.inl hrun)]
              | ok result lfs' =>
                  rw [bind_of_ok hrun, bind_of_ok hrun]
                  rw [hrun] at hturn
                  cases result with
                  | inl value => rfl
                  | inr next =>
                      obtain ⟨acc', tail'⟩ := next
                      exact ih hturn.1 (passAt_succ hpass hdetect hturn.2)

end

end Littlefs
