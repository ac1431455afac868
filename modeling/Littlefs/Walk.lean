import Littlefs.Reading
import Littlefs.Lib.Segments

/-!
# The list of metadata pairs

Every metadata pair names the next one in its tail.  What a pair holds depends
on the revisions and the commits of its two blocks only, so the list is kept by
every write to other blocks, and by writes that leave a pair's current commits
alone.
-/

namespace Littlefs

open Segments

/-! ## Pairs as they are fetched -/

/-- The `Mdir` a fetch gives, whether or not bytes behind the commits are erased. -/
def viewOf (disk : Block → BlockImage) (pair : Pair) : Mdir :=
  { mdirOf disk pair with erased := false }

/-- The pair behind a tail pointer. -/
def viewAt (disk : Block → BlockImage) (pair : Pair) : Option Mdir :=
  if lfsPairIsnull pair then none else (locate disk pair).map (viewOf disk)

/-- Two images that a scan cannot tell apart. -/
structure SameLog (left right : BlockImage) : Prop where
  rev : left.rev = right.rev
  commits : left.commits = right.commits

theorem SameLog.refl (image : BlockImage) : SameLog image image := ⟨rfl, rfl⟩

theorem SameLog.trans {left middle right : BlockImage} (hleft : SameLog left middle)
    (hright : SameLog middle right) : SameLog left right :=
  ⟨hleft.rev.trans hright.rev, hleft.commits.trans hright.commits⟩

theorem viewOf_congr {disk disk' : Block → BlockImage} {pair : Pair}
    (hsame : SameLog (disk' pair.1) (disk pair.1)) : viewOf disk' pair = viewOf disk pair := by
  simp only [viewOf, mdirOf, hsame.rev, hsame.commits]

theorem locate_congr {disk disk' : Block → BlockImage} {pair : Pair}
    (hfst : SameLog (disk' pair.1) (disk pair.1)) (hsnd : SameLog (disk' pair.2) (disk pair.2)) :
    locate disk' pair = locate disk pair := by
  unfold locate
  simp only [hfst.rev, hsnd.rev]
  split_ifs <;> simp_all [hfst.commits, hsnd.commits]

@[simp]
theorem viewOf_pair (disk : Block → BlockImage) (pair : Pair) : (viewOf disk pair).pair = pair :=
  rfl

/-- A pair that is read is found under its current orientation. -/
theorem viewAt_eq_some {disk : Block → BlockImage} {pair : Pair} {dir : Mdir} :
    viewAt disk pair = some dir ↔ lfsPairIsnull pair = false ∧
      locate disk pair = some dir.pair ∧ dir = viewOf disk dir.pair := by
  unfold viewAt
  constructor
  · intro h
    split_ifs at h with hnull
    obtain ⟨found, hlocate, rfl⟩ := Option.map_eq_some_iff.mp h
    exact ⟨by simpa using hnull, hlocate, rfl⟩
  · rintro ⟨hnull, hlocate, hdir⟩
    rw [if_neg (by simp [hnull]), hlocate, Option.map_some, ← hdir]

theorem viewAt_pair {disk : Block → BlockImage} {pair : Pair} {dir : Mdir}
    (hview : viewAt disk pair = some dir) : dir.pair = pair ∨ dir.pair = pair.swap :=
  locate_eq_or_swap (viewAt_eq_some.mp hview).2.1

theorem locate_commits {disk : Block → BlockImage} {pair found : Pair}
    (hlocate : locate disk pair = some found) : (disk found.1).commits ≠ [] := by
  unfold locate at hlocate
  dsimp only at hlocate
  split_ifs at hlocate <;> cases hlocate <;> assumption

theorem locate_self {disk : Block → BlockImage} {pair found : Pair}
    (hlocate : locate disk pair = some found) : locate disk found = some found := by
  obtain ⟨left, right⟩ := pair
  rcases lt_trichotomy (disk left).rev (disk right).rev with hrev | hrev | hrev <;>
  by_cases hleft : (disk left).commits = [] <;>
  by_cases hright : (disk right).commits = [] <;>
  simp [locate, hrev, hrev.not_gt, hleft, hright] at hlocate <;>
  subst hlocate <;>
  simp [locate, hrev, hrev.not_gt, hleft, hright]

/-- The block with the newer revision is the current one. -/
theorem locate_newer {disk : Block → BlockImage} {new old : Block}
    (hnew : (disk new).commits ≠ []) (hrev : (disk old).rev < (disk new).rev) :
    locate disk (new, old) = some (new, old) ∧ locate disk (old, new) = some (new, old) := by
  constructor
  · simp [locate, hnew, hrev.not_gt]
  · simp [locate, hnew, hrev]

/-- A block without commits is never the current one. -/
theorem locate_only {disk : Block → BlockImage} {current torn : Block}
    (hcurrent : (disk current).commits ≠ []) (htorn : (disk torn).commits = []) :
    locate disk (current, torn) = some (current, torn) ∧
      locate disk (torn, current) = some (current, torn) := by
  constructor
  · unfold locate
    dsimp only
    split_ifs <;> simp_all
  · unfold locate
    dsimp only
    split_ifs <;> simp_all

/-! ## Writes that keep a pair -/

/-- The current block of `dir` keeps its commits, and the other one either does
or has none. -/
structure KeepsDir (disk disk' : Block → BlockImage) (dir : Mdir) : Prop where
  current : SameLog (disk' dir.pair.1) (disk dir.pair.1)
  other : SameLog (disk' dir.pair.2) (disk dir.pair.2) ∨ (disk' dir.pair.2).commits = []

theorem KeepsDir.viewAt {disk disk' : Block → BlockImage} {pair : Pair} {dir : Mdir}
    (hkeeps : KeepsDir disk disk' dir) (hview : viewAt disk pair = some dir) :
    viewAt disk' pair = some dir := by
  obtain ⟨hnull, hlocate, hdir⟩ := viewAt_eq_some.mp hview
  obtain ⟨hcurrent, hother⟩ := hkeeps
  refine viewAt_eq_some.mpr ⟨hnull, ?_, hdir.trans (viewOf_congr hcurrent).symm⟩
  have hpair := locate_eq_or_swap hlocate
  rcases hother with hother | htorn
  · rcases hpair with hpair | hpair
    · rw [hpair] at hcurrent hother
      rw [locate_congr hcurrent hother, hlocate]
    · rw [hpair] at hcurrent hother
      rw [locate_congr hother hcurrent, hlocate]
  · have hcommits : (disk' dir.pair.1).commits ≠ [] := by
      rw [hcurrent.commits]
      exact locate_commits hlocate
    obtain ⟨hsame, hswap⟩ := locate_only hcommits htorn
    rcases hpair with hpair | hpair
    · rw [← hpair]
      exact hsame
    · rw [show pair = (dir.pair.2, dir.pair.1) by rw [hpair]; rfl]
      exact hswap

/-! ## The list -/

def Mdir.blocks (dir : Mdir) : List Block := [dir.pair.1, dir.pair.2]

def blocksOf (dirs : List Mdir) : List Block := dirs.flatMap Mdir.blocks

theorem mem_blocksOf {dirs : List Mdir} {block : Block} :
    block ∈ blocksOf dirs ↔ ∃ dir ∈ dirs, block = dir.pair.1 ∨ block = dir.pair.2 := by
  simp [blocksOf, Mdir.blocks]

/-- The pairs from one tail pointer up to another. -/
def Walk (disk : Block → BlockImage) : Pair → List Mdir → Pair → Prop :=
  Segment (viewAt disk) Mdir.tail

/-- The pairs on the tail list from the superblock pair. -/
def Chain (disk : Block → BlockImage) (dirs : List Mdir) : Prop :=
  ∃ stop, lfsPairIsnull stop = true ∧ Walk disk (0, 1) dirs stop

theorem Walk.keeps {disk disk' : Block → BlockImage} {start stop : Pair} {dirs : List Mdir}
    (hwalk : Walk disk start dirs stop) (hkeeps : ∀ dir ∈ dirs, KeepsDir disk disk' dir) :
    Walk disk' start dirs stop :=
  Segment.congr hwalk fun _ dir hmem hread => (hkeeps dir hmem).viewAt hread

/-- Every pair on the list is current. -/
theorem Walk.view {disk : Block → BlockImage} {start stop : Pair} {dirs : List Mdir}
    (hwalk : Walk disk start dirs stop) {dir : Mdir} (hmem : dir ∈ dirs) :
    locate disk dir.pair = some dir.pair ∧ dir = viewOf disk dir.pair := by
  obtain ⟨pair, hread⟩ := Segment.exists_read hwalk hmem
  obtain ⟨-, hlocate, hdir⟩ := viewAt_eq_some.mp hread
  exact ⟨locate_self hlocate, hdir⟩

theorem viewAt_of_isnull {disk : Block → BlockImage} {pair : Pair}
    (hnull : lfsPairIsnull pair = true) : viewAt disk pair = none := by
  rw [viewAt, if_pos hnull]

theorem Chain.unique {disk : Block → BlockImage} {dirs dirs' : List Mdir}
    (hchain : Chain disk dirs) (hchain' : Chain disk dirs') : dirs = dirs' := by
  obtain ⟨stop, hnull, hwalk⟩ := hchain
  obtain ⟨stop', hnull', hwalk'⟩ := hchain'
  exact (Segment.unique hwalk hwalk' (viewAt_of_isnull hnull) (viewAt_of_isnull hnull')).1

end Littlefs
