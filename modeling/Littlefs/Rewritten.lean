import Littlefs.Deltas

/-!
# A pair after its compaction

The new block of a pair is the current one, keeps the tail of the directory, and
carries the share of the global state that was left.
-/

namespace Littlefs

open Program

/-! ## Tails -/

/-- Tails that no walk tells apart. -/
def SameTail (left right : Pair) : Prop :=
  left = right ∨ lfsPairIsnull left = true ∧ lfsPairIsnull right = true

theorem SameTail.refl (tail : Pair) : SameTail tail tail := Or.inl rfl

theorem SameTail.symm {left right : Pair} (hsame : SameTail left right) : SameTail right left :=
  hsame.imp Eq.symm And.symm

theorem SameTail.trans {left middle right : Pair} (hleft : SameTail left middle)
    (hright : SameTail middle right) : SameTail left right := by
  apply hleft.elim
  · intro heq
    rw [heq]
    exact hright
  · intro hnull
    apply hright.elim
    · intro heq
      rw [← heq]
      exact hleft
    · exact fun hnull' => Or.inr ⟨hnull.1, hnull'.2⟩

/-- The pairs from `start` up to the tail `stop`. -/
def Reaches (disk : Block → BlockImage) (start : Pair) (dirs : List Mdir) (stop : Pair) : Prop :=
  ∃ stop', SameTail stop' stop ∧ Walk disk start dirs stop'

namespace Reaches

variable {disk disk' : Block → BlockImage} {start start' stop : Pair} {dirs : List Mdir}
    {dir : Mdir}

theorem nil (hsame : SameTail start stop) : Reaches disk start [] stop :=
  ⟨start, hsame, .nil start⟩

theorem keeps (hreaches : Reaches disk start dirs stop)
    (hkeeps : ∀ dir ∈ dirs, KeepsDir disk disk' dir) : Reaches disk' start dirs stop := by
  obtain ⟨stop', hsame, hwalk⟩ := hreaches
  exact ⟨stop', hsame, hwalk.keeps hkeeps⟩

/-- The start may be replaced by a tail that no walk tells apart. -/
theorem congr (hreaches : Reaches disk start dirs stop) (hstart : SameTail start' start) :
    Reaches disk start' dirs stop := by
  obtain ⟨stop', hsame, hwalk⟩ := hreaches
  cases hwalk with
  | nil => exact nil (hstart.trans hsame)
  | cons hread hnodes =>
      have heq : start' = start := by
        apply hstart.resolve_right
        intro hnull
        rw [viewAt_of_isnull hnull.2] at hread
        cases hread
      rw [heq]
      exact ⟨stop', hsame, .cons hread hnodes⟩

theorem cons (hview : viewAt disk start = some dir) (hreaches : Reaches disk dir.tail dirs stop) :
    Reaches disk start (dir :: dirs) stop := by
  obtain ⟨stop', hsame, hwalk⟩ := hreaches
  exact ⟨stop', hsame, .cons hview hwalk⟩

end Reaches

/-! ## Scanning a compacted block -/

/-- The scan of a fetch. -/
def plainScan (log : List Attr) : Scan := scanLog (fun _ => none) log

theorem plainScan_append_low (log : List Attr) {more : List Attr} (hlow : Low more) :
    (plainScan (log ++ more)).tail = (plainScan log).tail ∧
      (plainScan (log ++ more)).split = (plainScan log).split := by
  induction more using List.reverseRecOn with
  | nil => simp
  | append_singleton more attr ih =>
      have hmore : Low more := fun a ha => hlow a (List.mem_append_left _ ha)
      have hattr := hlow attr (List.mem_append_right _ (List.mem_singleton_self attr))
      have hsplice : attr.1.type1 ≠ tySplice := type1_ne_of_put hattr
      have htail : attr.1.type1 ≠ tyTail := by
        intro h
        rw [and_type1 attr.1.type 0x400 rfl] at hattr
        rw [Tag.type1] at h
        rw [h] at hattr
        exact absurd hattr (by decide)
      obtain ⟨htail', hsplit'⟩ := ih hmore
      rw [← htail', ← hsplit', plainScan, plainScan, scanLog, scanLog, ← List.append_assoc,
        List.foldl_append, List.foldl_cons, List.foldl_nil]
      simp only [Scan.step, if_neg hsplice, if_neg htail]
      split
      · split
        · exact ⟨rfl, rfl⟩
        · exact ⟨rfl, rfl⟩
      · exact ⟨rfl, rfl⟩

theorem tailTag_type1 (split : Bool) : (tailTag split).type1 = tyTail := by
  cases split <;> rfl

theorem tailTag_split (split : Bool) : ((tailTag split).chunk &&& 1 != 0) = split := by
  cases split <;> rfl

theorem plainScan_append_tail (log : List Attr) (split : Bool) (tail : Pair) :
    plainScan (log ++ [(tailTag split, .pair tail)]) =
      { plainScan log with tail := tail, split := split } := by
  have hname : tyTail ≠ tyName := by decide
  have hsplice : tyTail ≠ tySplice := by decide
  rw [plainScan, scanLog, List.foldl_append, List.foldl_cons, List.foldl_nil]
  simp only [Scan.step, tailTag_type1, tailTag_split, if_neg hname, if_neg hsplice, if_true]
  rfl

theorem plainScan_append_movestateTag (log : List Attr) (delta : Gstate) :
    plainScan (log ++ [(movestateTag, .gstate delta)]) = plainScan log := by
  have hname : movestateTag.type1 ≠ tyName := by decide
  have hsplice : movestateTag.type1 ≠ tySplice := by decide
  have htail : movestateTag.type1 ≠ tyTail := by decide
  rw [plainScan, scanLog, List.foldl_append, List.foldl_cons, List.foldl_nil]
  simp only [Scan.step, if_neg hname, if_neg hsplice, if_neg htail]
  rfl

theorem plainScan_append_gstateTags (log : List Attr) (delta : Gstate) :
    plainScan (log ++ gstateTags delta) = plainScan log := by
  unfold gstateTags
  split
  · rw [List.append_nil]
  · exact plainScan_append_movestateTag log delta

/-- The tail of a compacted block is the one of the directory. -/
theorem plainScan_compact {disk : Block → BlockImage} {attrs : List Mattr} {source : Mdir}
    {first last : ℕ} (dir : Mdir) (delta : Gstate)
    (hlow : Low (traverseCompact disk source attrs first last)) :
    SameTail (plainScan (compactBody disk attrs source first last dir ++ gstateTags delta)).tail
      dir.tail := by
  rw [plainScan_append_gstateTags, compactBody]
  split
  · rename_i hnull
    have htail := (plainScan_append_low [] hlow).1
    rw [List.nil_append] at htail
    rw [List.append_nil, htail]
    exact Or.inr ⟨rfl, hnull⟩
  · rw [plainScan_append_tail]
    exact SameTail.refl _

theorem stateless_compactBody {disk : Block → BlockImage} {attrs : List Mattr} {source : Mdir}
    {first last : ℕ} (dir : Mdir) (hlow : Low (traverseCompact disk source attrs first last)) :
    Stateless (compactBody disk attrs source first last dir) := by
  apply hlow.stateless.append
  split
  · exact fun _ h => absurd h List.not_mem_nil
  · intro attr hattr
    have htype : ∀ split, (tailTag split).type &&& 0x7ff ≠ tyMovestate := by decide
    rw [List.mem_singleton.mp hattr]
    exact htype dir.split

/-! ## The pair -/

/-- Blocks that a commit does not reach. -/
theorem Working.same {used : List Block} {own : Option Block} {base lfs : Lfs}
    (hworking : Working used own base lfs) {block : Block} (hheld : Held used base block)
    (hown : own ≠ some block) : lfs.disk block = base.disk block := by
  by_contra hne
  exact (hworking.changed block hne).elim hown hheld.not_taken

section

variable {used : List Block} {base lfs' mid : Lfs} {attrs : List Mattr} {source dir : Mdir}
  {first last : ℕ} {result : Mdir × CommitState}

namespace Compacted

/-- The block that was written is none of the others. -/
theorem ne (hcompacted : Compacted used (some dir.pair.2) base attrs source first last dir result
    lfs' mid) {block : Block} (hheld : Held used base block) (hne : block ≠ dir.pair.2) :
    block ≠ result.1.pair.1 := by
  intro heq
  apply hcompacted.aimed.writable.elim
  · intro hown
    rw [Option.some.injEq] at hown
    exact hne (heq.trans hown.symm)
  · intro htaken
    rw [← heq] at htaken
    exact hheld.not_taken htaken

theorem disk (hcompacted : Compacted used (some dir.pair.2) base attrs source first last dir result
    lfs' mid) {block : Block} (hheld : Held used base block) (hne : block ≠ dir.pair.2) :
    lfs'.disk block = base.disk block := by
  obtain ⟨erased, hwrote⟩ := hcompacted.wrote
  rw [hwrote]
  change Function.update mid.disk _ _ block = _
  rw [Function.update_of_ne (hcompacted.ne hheld hne)]
  apply hcompacted.aimed.working.same hheld
  intro hown
  rw [Option.some.injEq] at hown
  exact hne hown.symm

/-- The image of the new block. -/
theorem image (hcompacted : Compacted used (some dir.pair.2) base attrs source first last dir result
    lfs' mid) : ∃ erased, lfs'.disk result.1.pair.1 =
      compactImage (compactBody mid.disk attrs source first last dir ++
        gstateTags (deltaOf mid dir (result.2 == .relocated))) dir.rev result.1.off erased := by
  obtain ⟨erased, hwrote⟩ := hcompacted.wrote
  refine ⟨erased, ?_⟩
  rw [hwrote]
  exact Function.update_self ..

theorem pair_snd (hcompacted : Compacted used (some dir.pair.2) base attrs source first last dir
    result lfs' mid) : result.1.pair.2 = dir.pair.1 := by
  rw [hcompacted.eq]

/-- The new block is the current one. -/
theorem locate
    (hcompacted : Compacted used (some dir.pair.2) base attrs source first last dir result lfs' mid)
    (hheld : Held used base dir.pair.1) (hne : dir.pair.1 ≠ dir.pair.2)
    (hrev : (base.disk dir.pair.1).commits = [] ∨ (base.disk dir.pair.1).rev < dir.rev) :
    Littlefs.locate lfs'.disk result.1.pair = some result.1.pair := by
  obtain ⟨erased, himage⟩ := hcompacted.image
  have hother := hcompacted.disk hheld hne
  have hcommits : (lfs'.disk result.1.pair.1).commits ≠ [] := by
    rw [himage]
    exact List.cons_ne_nil _ _
  have hpair : result.1.pair = (result.1.pair.1, dir.pair.1) := by
    rw [← hcompacted.pair_snd]
  rw [hpair]
  apply hrev.elim
  · intro htorn
    rw [← hother] at htorn
    exact (locate_only hcommits htorn).1
  · intro hnewer
    apply (locate_newer hcommits _).1
    rw [himage, hother]
    exact hnewer

theorem log (hcompacted : Compacted used (some dir.pair.2) base attrs source first last dir result
    lfs' mid) : mdirLog lfs'.disk result.1 = compactBody mid.disk attrs source first last dir ++
      gstateTags (deltaOf mid dir (result.2 == .relocated)) := by
  obtain ⟨erased, himage⟩ := hcompacted.image
  rw [mdirLog, himage]
  simp [BlockImage.log, compactImage]

/-- What a fetch of the new pair gives. -/
theorem view (hcompacted : Compacted used (some dir.pair.2) base attrs source first last dir result
    lfs' mid) : viewOf lfs'.disk result.1.pair = { result.1 with
      erased := false
      count := (plainScan (mdirLog lfs'.disk result.1)).count
      split := (plainScan (mdirLog lfs'.disk result.1)).split
      tail := (plainScan (mdirLog lfs'.disk result.1)).tail } := by
  obtain ⟨erased, himage⟩ := hcompacted.image
  have hrev : result.1.rev = dir.rev := by rw [hcompacted.eq]
  rw [hcompacted.log]
  simp only [viewOf, mdirOf, himage, compactImage, hrev]
  simp [plainScan]

theorem viewAt
    (hcompacted : Compacted used (some dir.pair.2) base attrs source first last dir result lfs' mid)
    (hheld : Held used base dir.pair.1) (hne : dir.pair.1 ≠ dir.pair.2)
    (hrev : (base.disk dir.pair.1).commits = [] ∨ (base.disk dir.pair.1).rev < dir.rev)
    (hnull : lfsPairIsnull result.1.pair = false) :
    Littlefs.viewAt lfs'.disk result.1.pair = some (viewOf lfs'.disk result.1.pair) :=
  viewAt_eq_some.mpr ⟨hnull, hcompacted.locate hheld hne hrev, rfl⟩

theorem share_eq (hcompacted : Compacted used (some dir.pair.2) base attrs source first last dir
    result lfs' mid) (hlow : Low (traverseCompact mid.disk source attrs first last)) :
    share lfs' result.1 = deltaOf mid dir (result.2 == .relocated) := by
  have hoff : ¬result.1.off ≤ 4 := Nat.not_le_of_lt hcompacted.off_lt
  rw [share, readableLog, if_neg hoff, hcompacted.log]
  exact logGstate_compact (stateless_compactBody dir hlow) _

/-- The share of the pair and the state in memory add up to what they were. -/
theorem conserves (hcompacted : Compacted used (some dir.pair.2) base attrs source first last dir
    result lfs' mid) (hlow : Low (traverseCompact mid.disk source attrs first last))
    (hheld : Held used base dir.pair.1) (hne : dir.pair.1 ≠ dir.pair.2) :
    ((share lfs' result.1).xor (lfs'.gdisk.xor lfs'.gdelta)).Same
      ((share base dir).xor (base.gdisk.xor base.gdelta)) := by
  have hpaused := hcompacted.aimed.paused
  have hdisk : mid.disk dir.pair.1 = base.disk dir.pair.1 := by
    apply hpaused.working.same hheld
    intro hown
    rw [Option.some.injEq] at hown
    exact hne hown.symm
  have hshare : share mid dir = share base dir := by
    rw [share, share, readableLog, readableLog, mdirLog, mdirLog, hdisk]
  have hdelta : deltaOf mid dir (result.2 == .relocated) =
      (if result.2 == .relocated then mid.gdelta
        else (mid.gdisk.xor mid.gstate).xor mid.gdelta).dropSize.xor (share base dir) := by
    rw [← hshare]
    rfl
  obtain ⟨erased, hwrote⟩ := hcompacted.wrote
  have hgdelta : lfs'.gdelta = {} := by rw [hwrote]
  have hgdisk : lfs'.gdisk = if result.2 = .relocated then mid.gdisk else mid.gstate := by
    rw [hwrote]
  rw [hcompacted.share_eq hlow, hdelta, hgdelta, hgdisk, Gstate.xor_zero, ← hpaused.gdisk,
    ← hpaused.gdelta]
  unfold Gstate.Same
  by_cases hrelocated : result.2 = .relocated
  · simp only [hrelocated, beq_self_eq_true, if_true, Gstate.dropSize_xor, Gstate.dropSize_dropSize]
    ac_rfl
  · have hbeq : (result.2 == CommitState.relocated) = false := by simpa using hrelocated
    simp only [hbeq, if_neg hrelocated, Bool.false_eq_true, if_false, Gstate.dropSize_xor,
      Gstate.dropSize_dropSize]
    calc (((mid.gdisk.dropSize.xor mid.gstate.dropSize).xor mid.gdelta.dropSize).xor
            (share base dir).dropSize).xor mid.gstate.dropSize
        = ((share base dir).dropSize.xor (mid.gdisk.dropSize.xor mid.gdelta.dropSize)).xor
            (mid.gstate.dropSize.xor mid.gstate.dropSize) := by ac_rfl
      _ = (share base dir).dropSize.xor (mid.gdisk.dropSize.xor mid.gdelta.dropSize) := by
          rw [Gstate.xor_self, Gstate.xor_zero]

/-- The state on disk is the old one or the one in memory. -/
theorem gdisk {own : Option Block} (hcompacted : Compacted used own base attrs source first last dir
    result lfs' mid) : (lfs'.gdisk = base.gdisk ∨ lfs'.gdisk = base.gstate) ∧ lfs'.gdelta = {} := by
  have hpaused := hcompacted.aimed.paused
  obtain ⟨erased, hwrote⟩ := hcompacted.wrote
  have hgdisk : lfs'.gdisk = if result.2 = .relocated then mid.gdisk else mid.gstate := by
    rw [hwrote]
  rw [hgdisk, hpaused.gdisk, hpaused.working.setup.gstate]
  constructor
  · split
    · exact Or.inl rfl
    · exact Or.inr rfl
  · rw [hwrote]

theorem root {own : Option Block} (hcompacted : Compacted used own base attrs source first last dir
    result lfs' mid) : lfs'.root = base.root := by
  obtain ⟨erased, hwrote⟩ := hcompacted.wrote
  rw [← hcompacted.aimed.paused.root, hwrote]

end Compacted

end

end Littlefs
