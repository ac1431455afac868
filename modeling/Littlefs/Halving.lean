import Littlefs.Session
import Littlefs.Splitting

/-!
# The ranges that a compaction writes

`lfs_dir_splittingcompact` halves a range of ids until its upper part fits and
splits that part off.  The loop around the halving does not go back to the first
id, so whatever is left below is compacted as it is.
-/

namespace Littlefs

open Program

section

variable (disk : Block → BlockImage) (cfg : Config) (attrs : List Mattr) (source : Mdir)
  (first last : ℕ)

/-! ## Halving -/

/-- The space that the halving allows the tags of a range. -/
def Config.splitSpace : ℕ :=
  min (cfg.effectiveMax - 40) (lfsAlignup (cfg.effectiveMax / 2) cfg.progSize)

/-- A range that fits, or a single id. -/
def Settles : Prop :=
  last - first ≤ 1 ∨
    last - first < 0xff ∧
      attrsSize (traverseCompact disk source attrs first last) ≤ cfg.splitSpace

instance : Decidable (Settles disk cfg attrs source first last) :=
  inferInstanceAs (Decidable (_ ∨ _))

/-- Where the upper part begins once `[split, last)` was halved `turns` times. -/
def halved (last : ℕ) : ℕ → ℕ → ℕ
  | 0, split => split
  | turns + 1, split => halved last turns (split + (last - split) / 2)

/-- The upper part settles after `turns` halvings, and not before. -/
structure HalvesIn (turns split last : ℕ) : Prop where
  settles : Settles disk cfg attrs source (halved last turns split) last
  least : ∀ fewer < turns, ¬Settles disk cfg attrs source (halved last fewer split) last

/-- What the halving leaves below the upper part settles too. -/
def LowerSettles : Prop :=
  ∀ turns, HalvesIn disk cfg attrs source turns first last →
    Settles disk cfg attrs source first (halved last turns first)

end

variable {disk : Block → BlockImage} {cfg : Config} {attrs : List Mattr}
  {source dir dir' dir'' : Mdir} {first last last' split turns turns' size : ℕ}
  {lfs lfs' lfs'' : Lfs} {calls : List (ℕ × ℕ)}

theorem HalvesIn.unique (hhalves : HalvesIn disk cfg attrs source turns split last)
    (hhalves' : HalvesIn disk cfg attrs source turns' split last) : turns = turns' := by
  obtain hlt | heq | hlt := Nat.lt_trichotomy turns turns'
  · exact absurd hhalves.settles (hhalves'.least turns hlt)
  · exact heq
  · exact absurd hhalves'.settles (hhalves.least turns' hlt)

/-- The halving ends with the first upper part that settles. -/
theorem findSplit_halves (fuel : ℕ) (hfuel : last - split ≤ fuel) :
    ∃ turns, HalvesIn disk cfg attrs source turns split last ∧
      findSplit disk cfg attrs source last fuel split = halved last turns split := by
  induction fuel generalizing split with
  | zero =>
      have hempty : last - split ≤ 1 := hfuel.trans (Nat.zero_le 1)
      exact ⟨0, ⟨Or.inl hempty, fun fewer hlt => absurd hlt (Nat.not_lt_zero fewer)⟩, rfl⟩
  | succ fuel ih =>
      rw [findSplit]
      by_cases hmany : 1 < last - split
      · rw [if_pos hmany]
        dsimp only
        split
        · rename_i hfits
          exact ⟨0, ⟨Or.inr hfits, fun fewer hlt => absurd hlt (Nat.not_lt_zero fewer)⟩, rfl⟩
        · rename_i hfits
          obtain ⟨turns, ⟨hsettles, hleast⟩, hfound⟩ :=
            ih (by omega : last - (split + (last - split) / 2) ≤ fuel)
          refine ⟨turns + 1, ⟨hsettles, ?_⟩, hfound⟩
          intro fewer hlt
          cases fewer with
          | zero =>
              have hstart : ¬Settles disk cfg attrs source split last := by
                rintro (hfew | hfew)
                · exact absurd hmany (Nat.not_lt_of_le hfew)
                · exact hfits hfew
              exact hstart
          | succ fewer => exact hleast fewer (Nat.lt_of_succ_lt_succ hlt)
      · rw [if_neg hmany]
        exact ⟨0, ⟨Or.inl (Nat.le_of_not_lt hmany),
          fun fewer hlt => absurd hlt (Nat.not_lt_zero fewer)⟩, rfl⟩

theorem findSplit_settles (disk : Block → BlockImage) (cfg : Config) (attrs : List Mattr)
    (source : Mdir) (split last : ℕ) :
    Settles disk cfg attrs source (findSplit disk cfg attrs source last (last - split) split)
      last := by
  obtain ⟨turns, hhalves, hfound⟩ : ∃ turns, HalvesIn disk cfg attrs source turns split last ∧
      findSplit disk cfg attrs source last (last - split) split = halved last turns split :=
    findSplit_halves (last - split) (le_refl _)
  rw [hfound]
  exact hhalves.settles

theorem lowerSettles_iff :
    LowerSettles disk cfg attrs source first last ↔
      Settles disk cfg attrs source first
        (findSplit disk cfg attrs source last (last - first) first) := by
  obtain ⟨turns, hhalves, hfound⟩ : ∃ turns, HalvesIn disk cfg attrs source turns first last ∧
      findSplit disk cfg attrs source last (last - first) first = halved last turns first :=
    findSplit_halves (last - first) (le_refl _)
  rw [hfound]
  constructor
  · intro hlower
    exact hlower turns hhalves
  · intro hlower turns' hhalves'
    rw [← hhalves.unique hhalves']
    exact hlower

theorem settles_of_le (hle : last ≤ first) : Settles disk cfg attrs source first last := by
  apply Or.inl
  omega

/-! ## A run in which every split succeeds -/

/-- The log is read again for every range of more than one id. -/
def readRange (source : Mdir) (split last : ℕ) : FsM Unit :=
  if 1 < last - split then do
    let _ ← readLog source
  else
    return ()

/-- The turns of the outer loop, and the ranges that their splits compact. -/
inductive Turns (attrs : List Mattr) (source : Mdir) (first : ℕ) :
    Mdir → ℕ → ℕ → Lfs → List (ℕ × ℕ) → Mdir × ℕ → Lfs → Prop
  | stop {dir : Mdir} {split last found : ℕ} {lfs lfs' : Lfs}
      (hread : readRange source split last lfs = .ok () lfs')
      (hfound : findSplit lfs'.disk lfs'.cfg attrs source last (last - split) split = found)
      (hstop : found = first ∨ last ≤ found) :
      Turns attrs source first dir split last lfs [] (dir, last) lfs'
  | turn {dir dir' : Mdir} {split last found : ℕ} {lfs lfs' lfs'' lfs''' : Lfs}
      {calls : List (ℕ × ℕ)} {result : Mdir × ℕ}
      (hread : readRange source split last lfs = .ok () lfs')
      (hfound : findSplit lfs'.disk lfs'.cfg attrs source last (last - split) split = found)
      (hgoes : ¬(found = first ∨ last ≤ found))
      (hsplit : lfsDirSplit dir attrs source found last lfs' = .ok dir' lfs'')
      (hturns : Turns attrs source first dir' found found lfs'' calls result lfs''') :
      Turns attrs source first dir split last lfs ((found, last) :: calls) result lfs'''

/-- The superblock is due to be expanded. -/
def dueExpansion (lfs : Lfs) (dir : Mdir) : Bool :=
  lfsDirNeedsrelocation lfs.cfg dir && !lfsPairCmp dir.pair (0, 1)

/-- A run of `lfs_dir_splittingcompact` in which every split succeeds: the ranges handed
to `lfs_dir_compact`, and how the last of these calls ends. -/
inductive SplitRun (attrs : List Mattr) (dir : Mdir) (first last : ℕ) (lfs : Lfs) :
    List (ℕ × ℕ) → EStateM.Result Fault Lfs (Mdir × CommitState) → Prop
  | plain {calls : List (ℕ × ℕ)} {dir' : Mdir} {last' : ℕ} {lfs' : Lfs}
      (hturns : Turns attrs dir first dir first last lfs calls (dir', last') lfs')
      (hdue : dueExpansion lfs' dir' = false) :
      SplitRun attrs dir first last lfs (calls ++ [(first, last')])
        (lfsDirCompact dir' attrs dir first last' lfs')
  | crowded {calls : List (ℕ × ℕ)} {dir' : Mdir} {last' size : ℕ} {lfs' lfs'' : Lfs}
      (hturns : Turns attrs dir first dir first last lfs calls (dir', last') lfs')
      (hdue : dueExpansion lfs' dir' = true) (hsize : lfsFsSize lfs' = .ok size lfs'')
      (hroom : ¬(lfs'.blockCount : ℤ) - size > (lfs'.blockCount : ℤ) / 8) :
      SplitRun attrs dir first last lfs (calls ++ [(first, last')])
        (lfsDirCompact dir' attrs dir first last' lfs'')
  | expanded {calls : List (ℕ × ℕ)} {dir' dir'' : Mdir} {last' size : ℕ}
      {lfs' lfs'' lfs''' : Lfs}
      (hturns : Turns attrs dir first dir first last lfs calls (dir', last') lfs')
      (hdue : dueExpansion lfs' dir' = true) (hsize : lfsFsSize lfs' = .ok size lfs'')
      (hroom : (lfs'.blockCount : ℤ) - size > (lfs'.blockCount : ℤ) / 8)
      (hsplit : lfsDirSplit dir' attrs dir first last' lfs'' = .ok dir'' lfs''') :
      SplitRun attrs dir first last lfs (calls ++ [(first, last'), (first, 1)])
        (lfsDirCompact dir'' attrs dir first 1 lfs''')

/-- One turn of the outer loop. -/
theorem splitLoop_succ (fuel : ℕ) :
    splitLoop attrs source first (fuel + 1) dir split last =
      readRange source split last >>= fun _ => get >>= fun lfs =>
        let found := findSplit lfs.disk lfs.cfg attrs source last (last - split) split
        if found = first ∨ last ≤ found then
          pure (dir, last)
        else
          tryError (lfsDirSplit dir attrs source found last) >>= fun
            | .error .noSpace => pure (dir, last)
            | .error e => failWith e
            | .ok dir => splitLoop attrs source first fuel dir found found := by
  rw [splitLoop, readRange]
  split
  · rw [bind_assoc]
    rfl
  · rfl

theorem tryError_of_ok {α : Type} {program : FsM α} {value : α}
    (hrun : program lfs = .ok value lfs') : tryError program lfs = .ok (.ok value) lfs' :=
  attempt_eq_ok_ok.mpr hrun

/-- The turns are those of the loop. -/
theorem Turns.splitLoop_eq {result : Mdir × ℕ} {fuel : ℕ}
    (hturns : Turns attrs source first dir split last lfs calls result lfs')
    (hfuel : calls.length < fuel) :
    splitLoop attrs source first fuel dir split last lfs = .ok result lfs' := by
  induction hturns generalizing fuel with
  | stop hread hfound hstop =>
      obtain ⟨fuel, rfl⟩ := Nat.exists_eq_add_of_lt hfuel
      rw [splitLoop_succ, bind_of_ok hread, bind_of_ok (get_eq_ok.mpr ⟨rfl, rfl⟩)]
      rw [hfound, if_pos hstop]
      rfl
  | turn hread hfound hgoes hsplit hturns ih =>
      obtain ⟨fuel, rfl⟩ := Nat.exists_eq_add_of_lt hfuel
      rw [splitLoop_succ, bind_of_ok hread, bind_of_ok (get_eq_ok.mpr ⟨rfl, rfl⟩)]
      rw [hfound, if_neg hgoes, bind_of_ok (tryError_of_ok hsplit)]
      apply ih
      rw [List.length_cons]
      omega

theorem readRange_reads (hread : readRange source split last lfs = .ok () lfs') :
    Reads lfs lfs' := by
  rw [readRange] at hread
  split at hread
  · obtain ⟨log, middle, hlog, hrest⟩ := bind_eq_ok.mp hread
    obtain ⟨-, rfl⟩ := pure_eq_ok.mp hrest
    exact ((outcome_readLog source lfs).of_ok hlog).2
  · obtain ⟨-, rfl⟩ := pure_eq_ok.mp hread
    exact Reads.refl lfs

/-- Behind a split the loop finds an empty range, and stops. -/
theorem Turns.calls_eq {result : Mdir × ℕ}
    (hturns : Turns attrs source first dir split last lfs calls result lfs') :
    (calls = [] ∧ result.2 = last ∧
        (findSplit lfs.disk lfs.cfg attrs source last (last - split) split = first ∨
          last ≤ findSplit lfs.disk lfs.cfg attrs source last (last - split) split)) ∨
      ∃ found, findSplit lfs.disk lfs.cfg attrs source last (last - split) split = found ∧
        ¬(found = first ∨ last ≤ found) ∧ calls = [(found, last)] ∧ result.2 = found := by
  cases hturns with
  | stop hread hfound hstop =>
      rw [(readRange_reads hread).eq] at hfound
      exact Or.inl ⟨rfl, rfl, hfound ▸ hstop⟩
  | @turn _ _ _ _ found _ _ _ _ _ _ hread hfound hgoes hsplit hturns =>
      rw [(readRange_reads hread).eq] at hfound
      apply Or.inr
      refine ⟨found, hfound, hgoes, ?_⟩
      cases hturns with
      | stop hread' hfound' hstop' => exact ⟨rfl, rfl⟩
      | turn hread' hfound' hgoes' hsplit' hturns' =>
          have hempty : findSplit _ _ attrs source found (found - found) found = _ := hfound'
          rw [Nat.sub_self, findSplit] at hempty
          exact absurd (Or.inr (le_of_eq hempty)) hgoes'

/-- What follows the loop. -/
def compactRest (attrs : List Mattr) (source : Mdir) (first : ℕ) (looped : Mdir × ℕ) :
    FsM (Mdir × CommitState) := do
  let lfs ← get
  if dueExpansion lfs looped.1 then
    let size ← lfsFsSize
    if (lfs.blockCount : ℤ) - size > (lfs.blockCount : ℤ) / 8 then
      match ← tryError (lfsDirSplit looped.1 attrs source first looped.2) with
      | .error .noSpace => lfsDirCompact looped.1 attrs source first looped.2
      | .error e => failWith e
      | .ok dir => lfsDirCompact dir attrs source first 1
    else
      lfsDirCompact looped.1 attrs source first looped.2
  else
    lfsDirCompact looped.1 attrs source first looped.2

theorem lfsDirSplittingcompact_eq :
    lfsDirSplittingcompact dir attrs first last =
      splitLoop attrs dir first 2 dir first last >>= compactRest attrs dir first := rfl

/-- The run is that of the program. -/
theorem SplitRun.eq {result : EStateM.Result Fault Lfs (Mdir × CommitState)}
    (hrun : SplitRun attrs dir first last lfs calls result) :
    lfsDirSplittingcompact dir attrs first last lfs = result := by
  have hstart : ∀ {calls looped lfs'}, Turns attrs dir first dir first last lfs calls looped lfs' →
      lfsDirSplittingcompact dir attrs first last lfs =
          compactRest attrs dir first looped lfs' := by
    intro calls looped lfs' hturns
    rw [lfsDirSplittingcompact_eq]
    apply bind_of_ok
    apply hturns.splitLoop_eq
    obtain ⟨hcalls, -⟩ | ⟨found, -, -, hcalls, -⟩ := hturns.calls_eq
    · rw [hcalls]
      exact Nat.two_pos
    · rw [hcalls]
      exact Nat.one_lt_two
  cases hrun with
  | plain hturns hdue =>
      rw [hstart hturns, compactRest, bind_of_ok (get_eq_ok.mpr ⟨rfl, rfl⟩), hdue]
      rfl
  | crowded hturns hdue hsize hroom =>
      rw [hstart hturns, compactRest, bind_of_ok (get_eq_ok.mpr ⟨rfl, rfl⟩), hdue, if_pos rfl,
        bind_of_ok hsize, if_neg hroom]
  | expanded hturns hdue hsize hroom hsplit =>
      rw [hstart hturns, compactRest, bind_of_ok (get_eq_ok.mpr ⟨rfl, rfl⟩), hdue, if_pos rfl,
        bind_of_ok hsize, if_pos hroom]
      exact bind_of_ok (tryError_of_ok hsplit) _

/-! ## Room in a block -/

/-- The checks of `lfs_dir_compact` on the tags of a range, on the tail, when there is one,
and on the global state, when it is stored. -/
def compactRoom (cfg : Config) (tags : List Attr) (tailed moved : Bool) : Except Error ℕ := do
  let off ← commitAttrs cfg.commitEnd 4 tags
  let off ← if tailed then lfsDirCommitattr cfg.commitEnd off (tailTag true) else pure off
  if moved then lfsDirCommitattr cfg.commitEnd off movestateTag else pure off

/-- The configuration leaves room for the forward CRC too.  `commit.end` counts the
checksum in, but not the forward CRC in front of it. -/
def ForwardFits (cfg : Config) : Prop :=
  cfg.effectiveMax = cfg.blockSize ∨
    cfg.progSize ∣ cfg.effectiveMax ∧ cfg.splitSpace + 52 ≤ cfg.effectiveMax

/-- No check answers `NoSpace`. -/
def HasRoom (cfg : Config) (tags : List Attr) : Prop :=
  ∀ tailed moved, ∃ off, compactRoom cfg tags tailed moved = .ok off ∧
    (ForwardFits cfg → ∃ sealed, lfsDirCommitcrc cfg off = .ok sealed)

theorem commitAttrs_of_le {stop off : ℕ} {tags : List Attr}
    (hle : off + attrsSize tags ≤ stop) :
    commitAttrs stop off tags = .ok (off + attrsSize tags) := by
  induction tags generalizing off with
  | nil => rfl
  | cons attr rest ih =>
      have hsize : attrsSize (attr :: rest) = attr.1.dsize + attrsSize rest := by
        rw [attrsSize, attrsSize, List.map_cons, List.sum_cons]
      rw [hsize] at hle ⊢
      have hfits : ¬stop < off + attr.1.dsize := by omega
      have hrest := ih (by omega : off + attr.1.dsize + attrsSize rest ≤ stop)
      rw [commitAttrs] at hrest ⊢
      rw [List.foldlM_cons, lfsDirCommitattr, if_neg hfits, ← Nat.add_assoc]
      exact hrest

theorem lfsDirCommitattr_of_le {stop off : ℕ} {tag : Tag} (hle : off + tag.dsize ≤ stop) :
    lfsDirCommitattr stop off tag = .ok (off + tag.dsize) :=
  if_neg (Nat.not_lt_of_le hle)

/-- Forty bytes are enough for the revision, the tail, the global state and the checksum. -/
theorem compactRoom_of_le {tags : List Attr} (hle : attrsSize tags ≤ cfg.effectiveMax - 40)
    (hmax : 40 ≤ cfg.effectiveMax) (tailed moved : Bool) :
    ∃ off, compactRoom cfg tags tailed moved = .ok off ∧ off ≤ attrsSize tags + 32 := by
  have htail : (tailTag true).dsize = 12 := by decide
  have hmoves : movestateTag.dsize = 16 := by decide
  have hend : cfg.commitEnd = cfg.effectiveMax - 8 := rfl
  have htags : commitAttrs cfg.commitEnd 4 tags = .ok (4 + attrsSize tags) :=
    commitAttrs_of_le (by omega)
  have hfirst : lfsDirCommitattr cfg.commitEnd (4 + attrsSize tags) (tailTag true) =
      .ok (4 + attrsSize tags + 12) := by
    rw [← htail]
    exact lfsDirCommitattr_of_le (by omega)
  have hsecond : ∀ off ≤ 4 + attrsSize tags + 12,
      lfsDirCommitattr cfg.commitEnd off movestateTag = .ok (off + 16) := by
    intro off hoff
    rw [← hmoves]
    exact lfsDirCommitattr_of_le (by omega)
  rw [compactRoom, htags]
  cases tailed with
  | false =>
      cases moved with
      | false => exact ⟨4 + attrsSize tags, rfl, by omega⟩
      | true => exact ⟨_, hsecond (4 + attrsSize tags) (by omega), by omega⟩
  | true =>
      simp only [bind, Except.bind, if_true, hfirst]
      cases moved with
      | false => exact ⟨4 + attrsSize tags + 12, rfl, by omega⟩
      | true => exact ⟨_, hsecond (4 + attrsSize tags + 12) (le_refl _), by omega⟩

theorem commitcrcGo_done {stop off : ℕ} (fuel : ℕ) (hdone : ¬off < stop) :
    commitcrcGo cfg stop fuel off = .ok off := by
  cases fuel with
  | zero => rfl
  | succ fuel => rw [commitcrcGo, if_neg hdone]

/-- The loop over the checksums has room when its first turn has. -/
theorem commitcrcGo_ok {stop fuel off : ℕ}
    (hfits : stop ≤ cfg.blockSize - cfg.progSize →
      off + 12 ≤ cfg.commitEnd ∧ stop ≤ cfg.effectiveMax) :
    ∃ off', commitcrcGo cfg stop fuel off = .ok off' := by
  have hend : cfg.commitEnd = cfg.effectiveMax - 8 := rfl
  have hforward : (⟨0x5ff, 0x3ff, 8⟩ : Tag).dsize = 12 := by decide
  induction fuel generalizing off with
  | zero => exact ⟨off, rfl⟩
  | succ fuel ih =>
      rw [commitcrcGo]
      by_cases hoff : off < stop
      · rw [if_pos hoff]
        dsimp only
        generalize hnoff : (if min (stop - (off + 4)) 0x3fe + (off + 4) < stop then
            min (min (stop - (off + 4)) 0x3fe + (off + 4)) (stop - 20)
          else min (stop - (off + 4)) 0x3fe + (off + 4)) = noff
        split
        · rename_i hlast
          have hroom := (hfits (hlast.1.trans hlast.2)).1
          rw [← hforward] at hroom
          rw [lfsDirCommitattr_of_le hroom]
          exact ⟨noff, commitcrcGo_done fuel (Nat.not_lt_of_le hlast.1)⟩
        · by_cases hmore : noff < stop
          · apply ih
            intro hstop
            have hmax := (hfits hstop).2
            refine ⟨?_, hmax⟩
            split at hnoff <;> omega
          · exact ⟨noff, commitcrcGo_done fuel hmore⟩
      · rw [if_neg hoff]
        exact ⟨off, rfl⟩

/-- With room for the forward CRC the checksum is written. -/
theorem lfsDirCommitcrc_ok {off : ℕ} (hcfg : ConfigWf cfg) (hfits : ForwardFits cfg)
    (hmax : 40 ≤ cfg.effectiveMax) (hoff : off ≤ cfg.splitSpace + 32) :
    ∃ sealed, lfsDirCommitcrc cfg off = .ok sealed := by
  have hgo : ∃ off', commitcrcGo cfg (lfsAlignup (min (off + 20) cfg.blockSize) cfg.progSize)
      (lfsAlignup (min (off + 20) cfg.blockSize) cfg.progSize - off + 1) off = .ok off' := by
    apply commitcrcGo_ok
    intro hstop
    have hle : min (off + 20) cfg.blockSize ≤
        lfsAlignup (min (off + 20) cfg.blockSize) cfg.progSize := le_lfsAlignup hcfg.prog_pos
    have hpos := hcfg.prog_pos
    have hblock := hcfg.block_le
    have hend : cfg.commitEnd = cfg.effectiveMax - 8 := rfl
    obtain hwhole | ⟨hdvd, hspace⟩ := hfits
    · omega
    · have hlimit : min (off + 20) cfg.blockSize ≤ cfg.effectiveMax := by omega
      have hstop' := lfsAlignup_le hpos hlimit hdvd
      omega
  obtain ⟨off', hgo⟩ := hgo
  rw [lfsDirCommitcrc, hgo]
  exact ⟨_, rfl⟩

theorem hasRoom_of_le {tags : List Attr} (hcfg : ConfigWf cfg) (hmax : 40 ≤ cfg.effectiveMax)
    (hle : attrsSize tags ≤ cfg.splitSpace) : HasRoom cfg tags := by
  intro tailed moved
  obtain ⟨off, hroom, hoff⟩ :=
    compactRoom_of_le (hle.trans (min_le_left _ _)) hmax tailed moved
  exact ⟨off, hroom, fun hfits => lfsDirCommitcrc_ok hcfg hfits hmax (by omega)⟩

theorem traverseFiltered_empty {tmask ttag : ℕ} {process : Tag → Buffer → List Attr}
    {mattrs : List Mattr} (hle : last ≤ first) :
    traverseFiltered tmask ttag first last process mattrs = [] := by
  induction mattrs with
  | nil => rfl
  | cons mattr rest ih =>
      have hnone : ∀ tag : Tag, ¬(first ≤ tag.id ∧ tag.id < last) := by
        intro tag
        omega
      rw [traverseFiltered, ih, List.append_nil]
      split
      · split
        · rfl
        · rename_i tag hfiltered
          exact if_neg (hnone tag)
      · rfl

theorem halved_lt (hlt : split < last) : halved last turns split < last := by
  induction turns generalizing split with
  | zero => exact hlt
  | succ turns ih =>
      apply ih
      omega

theorem findSplit_lt (hlt : first < last) :
    findSplit disk cfg attrs source last (last - first) first < last := by
  obtain ⟨turns, hhalves, hfound⟩ : ∃ turns, HalvesIn disk cfg attrs source turns first last ∧
      findSplit disk cfg attrs source last (last - first) first = halved last turns first :=
    findSplit_halves (last - first) (le_refl _)
  rw [hfound]
  exact halved_lt hlt

/-- What the splits compact settles.  What they leave below settles as the halving has it. -/
theorem Turns.settles {result : Mdir × ℕ} (hle : first ≤ last)
    (hturns : Turns attrs source first dir first last lfs calls result lfs') :
    (∀ range ∈ calls, first ≤ range.1 ∧ range.2 ≤ last ∧
        Settles lfs.disk lfs.cfg attrs source range.1 range.2) ∧
      result.2 ≤ last ∧
      (Settles lfs.disk lfs.cfg attrs source first result.2 ↔
        LowerSettles lfs.disk lfs.cfg attrs source first last) := by
  have hupper := findSplit_settles lfs.disk lfs.cfg attrs source first last
  have hfirst : first ≤ findSplit lfs.disk lfs.cfg attrs source last (last - first) first :=
    le_findSplit _
  rw [lowerSettles_iff]
  obtain ⟨rfl, hlast, hstop⟩ | ⟨found, hfound, hgoes, rfl, hlast⟩ := hturns.calls_eq
  · refine ⟨fun range hmem => absurd hmem List.not_mem_nil, hlast.le, ?_⟩
    rw [hlast]
    obtain hstart | hend := hstop
    · rw [hstart] at hupper ⊢
      exact iff_of_true hupper (settles_of_le (le_refl _))
    · have hempty : last ≤ first := by
        apply Nat.le_of_not_lt
        intro hlt
        exact absurd (findSplit_lt hlt) (Nat.not_lt_of_le hend)
      apply iff_of_true (settles_of_le hempty)
      apply settles_of_le
      exact (findSplit_le _ hle).trans hempty
  · rw [hfound] at hupper hfirst ⊢
    rw [hlast]
    refine ⟨?_, Nat.le_of_not_le fun hle => hgoes (Or.inr hle), Iff.rfl⟩
    intro range hmem
    rw [List.mem_singleton.mp hmem]
    exact ⟨hfirst, le_refl _, hupper⟩

/-- A directory of five files in a block of 128 bytes, the first with an attribute of 30
bytes. -/
def skewed : Lfs := mountedAfter smallConfig
  (.mkdir [100] :: writeFile [100, 47, 97] [] [] ++ writeFile [100, 47, 98] [] [] ++
    writeFile [100, 47, 99] [] [] ++ writeFile [100, 47, 100] [] [] ++
    writeFile [100, 47, 101] [] [] ++ [.setattr [100, 47, 97] 1 (List.replicate 30 7)])

def skewedDir : Mdir where
  pair := (2, 3)
  rev := 3
  off := 128
  count := 5
  erased := false
  split := false
  tail := (blockNull, blockNull)

/-- The attribute of the second file. -/
def secondAttr (size : ℕ) : List Mattr :=
  [⟨lfsMktag (tyUserattr + 1) 1 size, .data (.bytes (List.replicate size 7))⟩]

theorem skewed_script : skewed.script = [] := by decide +kernel

theorem skewed_wf : ConfigWf skewed.cfg := by
  apply ConfigWf.mk <;> decide +kernel

/-- The run splits the last three files off. -/
theorem skewed_run {size : ℕ}
    (hfound : findSplit skewed.disk skewed.cfg (secondAttr size) skewedDir 5 5 0 = 2)
    (hread : endsWith (fun _ => true) (readRange skewedDir 0 5 skewed) = true)
    (hsplit : endsWith (fun dir' => lfsPairCmp dir'.pair (0, 1))
      (lfsDirSplit skewedDir (secondAttr size) skewedDir 2 5 skewed) = true) :
    ∃ result, SplitRun (secondAttr size) skewedDir 0 5 skewed [(2, 5), (0, 2)] result := by
  obtain ⟨value, lfs', hread', -⟩ := exists_ok_of_endsWith hread
  obtain ⟨dir', lfs'', hsplit', hpair⟩ := exists_ok_of_endsWith hsplit
  have hsame : lfs' = skewed := by
    obtain ⟨heq, hsuffix⟩ := readRange_reads hread'
    rw [skewed_script, List.suffix_nil] at hsuffix
    rw [heq, hsuffix, ← skewed_script]
  rw [hsame] at hread'
  have hlast : Turns (secondAttr size) skewedDir 0 dir' 2 2 lfs'' [] (dir', 2) lfs'' :=
    Turns.stop rfl rfl (Or.inr (le_refl 2))
  have hturns : Turns (secondAttr size) skewedDir 0 skewedDir 0 5 skewed [(2, 5)] (dir', 2) lfs'' :=
    Turns.turn hread' hfound (by decide) hsplit' hlast
  refine ⟨_, SplitRun.plain hturns ?_⟩
  rw [dueExpansion, hpair, Bool.not_true, Bool.and_false]

/-- A call that finds no space. -/
def runsOut {α : Type} : EStateM.Result Fault Lfs α → Bool
  | .error (.error .noSpace) _ => true
  | _ => false

theorem exists_of_runsOut {α : Type} {result : EStateM.Result Fault Lfs α}
    (hruns : runsOut result = true) : ∃ lfs', result = .error (.error .noSpace) lfs' := by
  unfold runsOut at hruns
  split at hruns
  · exact ⟨_, rfl⟩
  · cases hruns

end Littlefs
