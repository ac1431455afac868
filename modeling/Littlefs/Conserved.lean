import Littlefs.Appending
import Littlefs.Session

/-!
# The global state along a run

The pairs of a filesystem change by commits, and by drops that hand the share of
a pair to the next commit.  Through all of them the shares add up to the state
on disk and what is still to be written.
-/

namespace Littlefs

open Program Segments

/-! ## The pairs that replace a directory -/

/-- The pair behind a list is none of its own. -/
def Beyond (disk : Block → BlockImage) (dirs : List Mdir) (stop : Pair) : Prop :=
  ∀ dir ∈ dirs, viewAt disk stop ≠ some dir

theorem Reaches.unique {disk : Block → BlockImage} {start stop : Pair} {dirs dirs' : List Mdir}
    (hreaches : Reaches disk start dirs stop) (hreaches' : Reaches disk start dirs' stop)
    (hbeyond : Beyond disk dirs stop) (hbeyond' : Beyond disk dirs' stop) : dirs = dirs' := by
  obtain ⟨stop1, hsame1, hwalk1⟩ := hreaches
  obtain ⟨stop2, hsame2, hwalk2⟩ := hreaches'
  -- a longer list would go through the pair behind the shorter one
  have hnil : ∀ stop' stop'' rest, SameTail stop' stop →
      (∀ dir ∈ rest, viewAt disk stop ≠ some dir) →
      Segment (viewAt disk) Mdir.tail stop' rest stop'' → rest = [] := by
    intro stop' stop'' rest hsame hrest hsegment
    cases hsegment with
    | nil => rfl
    | cons hread hnodes =>
        apply hsame.elim
        · intro heq
          rw [heq] at hread
          exact absurd hread (hrest _ List.mem_cons_self)
        · intro hnull
          rw [viewAt_of_isnull hnull.1] at hread
          cases hread
  apply (Segment.extends_or hwalk1 hwalk2).elim
  · rintro ⟨rest, rfl, hrest⟩
    rw [hnil _ _ _ hsame1 (fun dir hmem => hbeyond' dir (List.mem_append_right _ hmem)) hrest,
      List.append_nil]
  · rintro ⟨rest, rfl, hrest⟩
    rw [hnil _ _ _ hsame2 (fun dir hmem => hbeyond dir (List.mem_append_right _ hmem)) hrest,
      List.append_nil]

/-- `pair` is null, or a pair that a commit of `dir` does not touch. -/
def Apart (used : List Block) (lfs : Lfs) (dir : Mdir) (pair : Pair) : Prop :=
  lfsPairIsnull pair = true ∨ Held used lfs pair.1 ∧ pair.1 ∉ dir.blocks

theorem Replaced.beyond {used : List Block} {base lfs' : Lfs} {dir result : Mdir} {tail : Pair}
    {state : CommitState} {news : List Mdir}
    (hreplaced : Replaced used base dir tail result state news lfs')
    (hapart : Apart used base dir tail) : Beyond lfs'.disk news tail := by
  intro new hmem hview
  obtain ⟨hheld, hblocks⟩ : Held used base tail.1 ∧ tail.1 ∉ dir.blocks := by
    apply hapart.resolve_left
    intro hnull
    rw [viewAt_of_isnull hnull] at hview
    cases hview
  have hblock : tail.1 ∈ blocksOf news := by
    apply mem_blocksOf.mpr
    refine ⟨new, hmem, ?_⟩
    apply (viewAt_pair hview).imp
    · intro heq
      rw [heq]
    · intro heq
      rw [heq]
      rfl
  have hdir : tail.1 ≠ dir.pair.1 ∧ tail.1 ≠ dir.pair.2 := by
    simpa [Mdir.blocks] using hblocks
  apply (hreplaced.blocks _ hblock).elim hdir.1
  exact fun h => h.elim hdir.2 hheld.not_taken

/-- One call that succeeds: the shares of the pairs that replace `dir` add up
with the state in memory to what they were. -/
def CallConserves (lfs : Lfs) (dir : Mdir) (attrs : List Mattr) (result : Relocating)
    (lfs' : Lfs) : Prop :=
  if result.state = .dropped then
    share lfs' dir = share lfs dir ∧ lfs'.gdisk = lfs.gdisk ∧ lfs'.gdelta = lfs.gdelta
  else
    ∃ news, news ≠ [] ∧
      Reaches lfs'.disk result.dir.pair news (attrs.foldl applyMattr dir).tail ∧
      ((shares lfs' news).xor (lfs'.gdisk.xor lfs'.gdelta)).Same
        ((share lfs dir).xor (lfs.gdisk.xor lfs.gdelta)) ∧
      lfs'.gdelta = {} ∧ (result.state ≠ .relocated → lfs'.gdisk = lfs'.gstate)

theorem lfsDirRelocatingcommit_callConserves {used : List Block} {lfs lfs' : Lfs} {dir : Mdir}
    {attrs : List Mattr} {pair : Pair} {self : Option ℕ} {pdir : Option Mdir} {result : Relocating}
    (hcalling : Calling used lfs dir attrs)
    (hok : lfsDirRelocatingcommit dir pair self attrs pdir lfs = .ok result lfs') :
    CallConserves lfs dir attrs result lfs' := by
  have hrelocated := (lfsDirRelocatingcommit_relocated hcalling pair self pdir).of_ok hok
  unfold Relocated at hrelocated
  unfold CallConserves
  split
  · rename_i hstate
    rw [if_pos hstate] at hrelocated
    rw [hrelocated.eq]
    exact ⟨rfl, rfl, rfl⟩
  · rename_i hstate
    rw [if_neg hstate] at hrelocated
    obtain ⟨news, hreplaced⟩ := hrelocated
    exact ⟨news, hreplaced.ne_nil, hreplaced.reaches, hreplaced.conserves, hreplaced.gdelta,
      hreplaced.gdisk⟩

/-! ## Runs -/

theorem shares_append (lfs : Lfs) (dirs more : List Mdir) :
    shares lfs (dirs ++ more) = (shares lfs dirs).xor (shares lfs more) := by
  induction dirs with
  | nil => rw [List.nil_append, shares_nil, Gstate.zero_xor]
  | cons dir dirs ih => rw [List.cons_append, shares_cons, shares_cons, ih, Gstate.xor_assoc]

theorem shares_perm (lfs : Lfs) {dirs dirs' : List Mdir} (hperm : dirs.Perm dirs') :
    shares lfs dirs = shares lfs dirs' := by
  induction hperm with
  | nil => rfl
  | cons dir _ ih => rw [shares_cons, shares_cons, ih]
  | swap dir dir' dirs =>
      simp only [shares_cons]
      ac_rfl
  | trans _ _ ih ih' => exact ih.trans ih'

theorem shares_share {lfs lfs' : Lfs} {dirs : List Mdir}
    (hshare : ∀ dir ∈ dirs, share lfs' dir = share lfs dir) :
    shares lfs' dirs = shares lfs dirs := by
  rw [shares, shares, List.map_congr_left hshare]

/-- The pairs of the filesystem as the commits of a run have left them.  A commit
puts new pairs in the place of the old one, or behind the others if the directory
is new; a drop takes the share of a pair into `gdelta`. -/
inductive Commits : Lfs → List Mdir → Prop
  | start {lfs : Lfs} {dirs : List Mdir}
      (hsum : (shares lfs dirs).Same (lfs.gdisk.xor lfs.gdelta)) : Commits lfs dirs
  | commit {used : List Block} {lfs lfs' : Lfs} {before old after news : List Mdir} {dir : Mdir}
      {attrs : List Mattr} {pair : Pair} {self : Option ℕ} {pdir : Option Mdir}
      {result : Relocating} (hrun : Commits lfs (before ++ old ++ after))
      (hold : old = [{ dir with erased := false }] ∨ old = [] ∧ dir.off ≤ 4)
      (hcalling : Calling used lfs dir attrs)
      (hothers : ∀ other ∈ before ++ after, Apart used lfs dir other.pair)
      (hnull : ∀ other ∈ before ++ after, lfsPairIsnull other.pair = false)
      (htail : Apart used lfs dir (attrs.foldl applyMattr dir).tail)
      (hok : lfsDirRelocatingcommit dir pair self attrs pdir lfs = .ok result lfs')
      (hstate : result.state ≠ .dropped)
      (hnews : Reaches lfs'.disk result.dir.pair news (attrs.foldl applyMattr dir).tail)
      (hbeyond : Beyond lfs'.disk news (attrs.foldl applyMattr dir).tail) :
      Commits lfs' (before ++ news ++ after)
  | dropped {used : List Block} {lfs lfs' : Lfs} {dirs : List Mdir} {dir : Mdir}
      {attrs : List Mattr} {pair : Pair} {self : Option ℕ} {pdir : Option Mdir}
      {result : Relocating} (hrun : Commits lfs dirs) (hcalling : Calling used lfs dir attrs)
      (hok : lfsDirRelocatingcommit dir pair self attrs pdir lfs = .ok result lfs')
      (hstate : result.state = .dropped) : Commits lfs' dirs
  | steal {lfs lfs' : Lfs} {before after : List Mdir} {dir : Mdir} {gdelta : Gstate}
      (hrun : Commits lfs (before ++ dir :: after))
      (hok : lfsDirGetgstate dir lfs.gdelta lfs = .ok gdelta lfs') :
      Commits { lfs' with gdelta := gdelta } (before ++ after)
  | other {lfs lfs' : Lfs} {dirs : List Mdir} (hrun : Commits lfs dirs)
      (hdisk : ∀ dir ∈ dirs, lfs'.disk dir.pair.1 = lfs.disk dir.pair.1)
      (hgdisk : lfs'.gdisk = lfs.gdisk) (hgdelta : lfs'.gdelta = lfs.gdelta) : Commits lfs' dirs

theorem outcome_lfsDirGetgstate (dir : Mdir) (gstate : Gstate) (lfs : Lfs) :
    Outcome (lfsDirGetgstate dir gstate)
      (fun result lfs' => result = gstate.xor (share lfs dir) ∧ Reads lfs lfs')
      (fun _ lfs' => Reads lfs lfs') lfs := by
  rw [lfsDirGetgstate, outcome_bind]
  apply (outcome_readLog dir lfs).imp
  · intro log lfs' hread
    rw [outcome_pure, hread.1]
    exact ⟨rfl, hread.2⟩
  · exact fun _ _ hfails => hfails.1

/-- The shares of the pairs add up to the state on disk. -/
theorem Commits.sum {lfs : Lfs} {dirs : List Mdir} (hrun : Commits lfs dirs) :
    (shares lfs dirs).Same (lfs.gdisk.xor lfs.gdelta) := by
  induction hrun with
  | start hsum => exact hsum
  | @commit used lfs lfs' before old after news dir attrs pair self pdir result _ hold hcalling
      hothers hnull htail hok hstate hnews hbeyond ih =>
      have hrelocated := (lfsDirRelocatingcommit_relocated hcalling pair self pdir).of_ok hok
      unfold Relocated at hrelocated
      rw [if_neg hstate] at hrelocated
      obtain ⟨news', hreplaced⟩ := hrelocated
      have heq := Reaches.unique hnews hreplaced.reaches hbeyond (hreplaced.beyond htail)
      subst heq
      have hkeep : ∀ other ∈ before ++ after, lfs'.disk other.pair.1 = lfs.disk other.pair.1 := by
        intro other hmem
        obtain ⟨hheld, hblocks⟩ := (hothers other hmem).resolve_left (by simp [hnull other hmem])
        have hdir : other.pair.1 ≠ dir.pair.1 ∧ other.pair.1 ≠ dir.pair.2 := by
          simpa [Mdir.blocks] using hblocks
        exact hreplaced.frame _ hheld hdir.1 hdir.2
      have hbefore : shares lfs' before = shares lfs before :=
        shares_congr fun other hmem => hkeep other (List.mem_append_left _ hmem)
      have hafter : shares lfs' after = shares lfs after :=
        shares_congr fun other hmem => hkeep other (List.mem_append_right _ hmem)
      have hshare : shares lfs old = share lfs dir := by
        apply hold.elim
        · intro heq
          rw [heq, shares_cons, shares_nil, Gstate.xor_zero]
          exact share_congr rfl rfl rfl
        · intro hnew
          rw [hnew.1, share, readableLog, if_pos hnew.2]
          rfl
      have hconserves := hreplaced.conserves
      rw [shares_append, shares_append, hbefore, hafter]
      rw [shares_append, shares_append, hshare] at ih
      unfold Gstate.Same at *
      simp only [Gstate.dropSize_xor] at hconserves ih ⊢
      calc (((shares lfs before).dropSize.xor (shares lfs' news).dropSize).xor
              (shares lfs after).dropSize)
          = ((shares lfs before).dropSize.xor (shares lfs after).dropSize).xor
              (((shares lfs' news).dropSize.xor (lfs'.gdisk.dropSize.xor lfs'.gdelta.dropSize)).xor
                (lfs'.gdisk.dropSize.xor lfs'.gdelta.dropSize)) := by
            rw [Gstate.xor_assoc (shares lfs' news).dropSize, Gstate.xor_self, Gstate.xor_zero]
            ac_rfl
        _ = (((shares lfs before).dropSize.xor (share lfs dir).dropSize).xor
              (shares lfs after).dropSize).xor ((lfs.gdisk.dropSize.xor lfs.gdelta.dropSize).xor
                (lfs'.gdisk.dropSize.xor lfs'.gdelta.dropSize)) := by
            rw [hconserves]
            ac_rfl
        _ = lfs'.gdisk.dropSize.xor lfs'.gdelta.dropSize := by
            rw [ih, ← Gstate.xor_assoc, Gstate.xor_self, Gstate.zero_xor]
  | @dropped used lfs lfs' dirs dir attrs pair self pdir result _ hcalling hok hstate ih =>
      have hrelocated := (lfsDirRelocatingcommit_relocated hcalling pair self pdir).of_ok hok
      unfold Relocated at hrelocated
      rw [if_pos hstate] at hrelocated
      rw [hrelocated.eq]
      exact ih
  | @steal lfs lfs' before after dir gdelta _ hok ih =>
      obtain ⟨hgdelta, hreads⟩ := (outcome_lfsDirGetgstate dir lfs.gdelta lfs).of_ok hok
      have hshares : ∀ dirs, shares { lfs' with gdelta := gdelta } dirs = shares lfs dirs := by
        intro dirs
        rw [hreads.eq]
        rfl
      rw [hshares, shares_append, hgdelta]
      rw [shares_append, shares_cons] at ih
      have hgdisk : lfs'.gdisk = lfs.gdisk := by rw [hreads.eq]
      unfold Gstate.Same at *
      simp only [Gstate.dropSize_xor, hgdisk] at ih ⊢
      calc (shares lfs before).dropSize.xor (shares lfs after).dropSize
          = ((shares lfs before).dropSize.xor
              ((share lfs dir).dropSize.xor (shares lfs after).dropSize)).xor
                (share lfs dir).dropSize := by
            rw [← Gstate.zero_xor ((shares lfs before).dropSize.xor (shares lfs after).dropSize),
              ← Gstate.xor_self (share lfs dir).dropSize]
            ac_rfl
        _ = lfs.gdisk.dropSize.xor (lfs.gdelta.dropSize.xor (share lfs dir).dropSize) := by
            rw [ih, Gstate.xor_assoc]
  | other _ hdisk hgdisk hgdelta ih =>
      rw [shares_congr hdisk, hgdisk, hgdelta]
      exact ih

/-- The shares on the tail list add up to the state on disk. -/
def ListConserved (lfs : Lfs) : Prop :=
  ∀ dirs, Chain lfs.disk dirs → (shares lfs dirs).Same (lfs.gdisk.xor lfs.gdelta)

/-- The tail list names the pairs as the commits have left them: no pair that has
moved is listed under its old address, and none that was dropped is listed. -/
def Linked (lfs : Lfs) (dirs : List Mdir) : Prop :=
  ∀ listed, Chain lfs.disk listed → listed.Perm dirs

/-- The pairs from `pair` to the end of the list. -/
def listFrom (disk : Block → BlockImage) : ℕ → Pair → Option (List Mdir)
  | 0, _ => none
  | fuel + 1, pair =>
      if lfsPairIsnull pair then some []
      else (viewAt disk pair).bind fun dir => (listFrom disk fuel dir.tail).map (dir :: ·)

theorem chain_of_listFrom {disk : Block → BlockImage} {fuel : ℕ} {dirs : List Mdir}
    (hlist : listFrom disk fuel (0, 1) = some dirs) : Chain disk dirs := by
  have hwalk : ∀ fuel pair dirs, listFrom disk fuel pair = some dirs →
      ∃ stop, lfsPairIsnull stop = true ∧ Walk disk pair dirs stop := by
    intro fuel
    induction fuel with
    | zero =>
        intro pair dirs h
        cases h
    | succ fuel ih =>
        intro pair dirs h
        rw [listFrom] at h
        split at h
        · rename_i hnull
          cases h
          exact ⟨pair, hnull, .nil pair⟩
        · obtain ⟨dir, hview, h⟩ := Option.bind_eq_some_iff.mp h
          obtain ⟨rest, hrest, rfl⟩ := Option.map_eq_some_iff.mp h
          obtain ⟨stop, hstop, hnodes⟩ := ih dir.tail rest hrest
          exact ⟨stop, hstop, .cons hview hnodes⟩
  exact hwalk fuel (0, 1) dirs hlist

/-- The list as it is read, compared with the state on disk. -/
def listedState (lfs : Lfs) : Option (Gstate × Gstate) :=
  (listFrom lfs.disk 16 (0, 1)).map fun dirs =>
    ((shares lfs dirs).dropSize, (lfs.gdisk.xor lfs.gdelta).dropSize)

theorem not_listConserved {lfs : Lfs} {left right : Gstate}
    (hlisted : listedState lfs = some (left, right)) (hne : left ≠ right) : ¬ListConserved lfs := by
  obtain ⟨dirs, hlist, heq⟩ := Option.map_eq_some_iff.mp hlisted
  cases heq
  exact fun hconserved => hne (hconserved dirs (chain_of_listFrom hlist))

/-- A device after its first mount. -/
def freshlyMounted : Lfs := mountedAfter smallConfig []

/-- The root as a fetch gives it. -/
def mountedRoot : Mdir := mdirOf freshlyMounted.disk (1, 0)

/-- A new file behind the superblock. -/
def newFile : List Mattr :=
  [⟨⟨tyCreate, 1, 0⟩, .data .empty⟩, ⟨⟨tyReg, 1, 1⟩, .data (.bytes [97])⟩,
    ⟨⟨tyInlinestruct, 1, 0⟩, .data .empty⟩]

theorem data_newFile : ∀ mattr ∈ newFile,
    TagWf mattr.tag ∧ ∃ payload, mattr.buffer = .data payload := by
  intro mattr hmattr
  simp only [newFile, List.mem_cons, List.not_mem_nil, or_false] at hmattr
  rcases hmattr with rfl | rfl | rfl
  all_goals exact ⟨by decide, _, rfl⟩

theorem calling_mountedRoot : Calling [1, 0] freshlyMounted mountedRoot newFile := by
  have hlist : listFrom freshlyMounted.disk 16 (0, 1) =
      some [{ mountedRoot with erased := false }] := by
    decide +kernel
  have hwindow : freshlyMounted.lookahead.size = 0 := by decide +kernel
  have hinv : AllocInv (blocksOf [{ mountedRoot with erased := false }]) freshlyMounted := by
    refine ⟨⟨?_, ?_, ?_, ?_, ?_, ?_, ?_⟩, ?_, ?_⟩
    case refine_8 =>
      rw [Lookahead.Room]
      decide +kernel
    case refine_9 =>
      intro i _ hi
      rw [hwindow] at hi
      exact absurd hi (Nat.not_lt_zero i)
    all_goals decide +kernel
  have hheld : ∀ block, some mountedRoot.pair.2 = some block →
      Held (blocksOf [{ mountedRoot with erased := false }]) freshlyMounted block := by
    intro block hblock
    rw [← Option.some.inj hblock]
    exact Or.inl (List.mem_cons_of_mem _ List.mem_cons_self)
  have hguarded : Guarded [1, 0] (some mountedRoot.pair.2) freshlyMounted := by
    apply Guarded.of_chain hinv hheld (chain_of_listFrom hlist)
    decide +kernel
  have hcommitting : Committing [1, 0] freshlyMounted mountedRoot newFile := by
    refine ⟨⟨?_, ?_, ?_⟩, ?_, hguarded, Or.inl ?_, ?_, ?_, ?_, ?_, ?_, ?_, ?_, ?_, ?_⟩
    case refine_12 =>
      intro mattr hmattr
      obtain ⟨hwf, payload, hbuffer⟩ := data_newFile mattr hmattr
      obtain ⟨tag, buffer⟩ := mattr
      dsimp only at hbuffer
      rw [hbuffer]
      exact .plain (.data hwf)
    case refine_14 =>
      intro mattr hmattr source hsource
      obtain ⟨-, payload, hbuffer⟩ := data_newFile mattr hmattr
      rw [hbuffer] at hsource
      cases hsource
    all_goals decide +kernel
  exact ⟨hcommitting, fun _ => ⟨by decide +kernel, by decide +kernel⟩, by decide +kernel⟩

/-- Six files on three pairs, one of them moved into a directory; then the files
of the last pair are removed.  Its predecessor carries the delta of the move, and
is due to move itself when it takes over the tail of the dropped pair. -/
def leftBehind : Lfs :=
  mountedAfter { smallConfig with blockCycles := 4 }
    (.mkdir [65] :: ([97, 98, 99, 100, 101, 102].flatMap fun name =>
        writeFile [name] [1, 2, 3, 4] []) ++
      [.rename [97] [65, 47, 97], .remove [100], .remove [101], .remove [102], .remove [98],
        .remove [99]])

end Littlefs
