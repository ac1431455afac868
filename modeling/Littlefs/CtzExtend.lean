import Littlefs.Traversal
import Littlefs.TraversalReads
import Littlefs.Working

/-!
# Extending a block list

`lfs_ctz_extend` gives a list its next block: an empty one at the start, a copy of the
last block when that is not full, and otherwise a block that begins with pointers.  It
tries fresh blocks until one takes the bytes, and writes no block in use.
-/

namespace Littlefs

open Program SkipLists

/-! ## Words in bytes -/

theorem readWord_wordBytes {word : Block} (hword : word < 2 ^ 32) (rest : Bytes) :
    readWord (wordBytes word ++ rest) 0 = word := by
  have hdigits : ∀ n : ℕ, n < 2 ^ 32 → n % 256 + 2 ^ 8 * (n / 2 ^ 8 % 256) +
      2 ^ 16 * (n / 2 ^ 16 % 256) + 2 ^ 24 * (n / 2 ^ 24 % 256) = n := by
    intro n hn
    omega
  exact hdigits word hword

/-- The words behind each other. -/
theorem readWord_flatMap {words : List Block} (hwords : ∀ word ∈ words, word < 2 ^ 32) {k : ℕ}
    (hk : k < words.length) : readWord (words.flatMap wordBytes) (4 * k) = words.getD k 0 := by
  induction words generalizing k with
  | nil => exact absurd hk (Nat.not_lt_zero k)
  | cons word rest ih =>
      rw [List.flatMap_cons]
      cases k with
      | zero => exact readWord_wordBytes (hwords word List.mem_cons_self) _
      | succ k =>
          rw [List.getD_cons_succ,
            ← ih (fun other hmem => hwords other (List.mem_cons_of_mem _ hmem))
            (by simpa using hk)]
          have hlength : (wordBytes word).length = 4 := rfl
          simp only [readWord]
          rw [List.getD_append_right _ _ _ _ (by omega), List.getD_append_right _ _ _ _ (by omega),
            List.getD_append_right _ _ _ _ (by omega), List.getD_append_right _ _ _ _ (by omega),
            hlength]
          simp only [show 4 * (k + 1) - 4 = 4 * k by omega,
            show 4 * (k + 1) + 1 - 4 = 4 * k + 1 by omega,
            show 4 * (k + 1) + 2 - 4 = 4 * k + 2 by omega,
            show 4 * (k + 1) + 3 - 4 = 4 * k + 3 by omega]

/-! ## Lists with another last block -/

/-- The bytes of the blocks of a disk. -/
def diskBytes (disk : Block → BlockImage) (block : Block) : Bytes := (disk block).data

/-- The byte at position `pos` of the file with the given blocks. -/
def ctzByte (blockSize : ℕ) (bytes : Block → Bytes) (blocks : ℕ → Block) (pos : ℕ) : ℕ :=
  let place := lfsCtzIndex blockSize pos
  (bytes (blocks place.1)).getD place.2 0

variable {bytes bytes' : Block → Bytes} {blocks : ℕ → Block} {last : ℕ} {nblock : Block}

/-- A copy of the pointers of the last block takes its place. -/
theorem CtzList.replace (hlist : CtzList bytes blocks last) (hlast : last < 2 ^ 32)
    (hbytes : ∀ i < last, bytes' (blocks i) = bytes (blocks i))
    (hcopy : ∀ i < 4 * pointers last,
      (bytes' nblock).getD i 0 = (bytes (blocks last)).getD i 0) :
    CtzList bytes' (Function.update blocks last nblock) last where
  pointer i hi hpos k hk := by
    have hlt : i - 2 ^ k < last := by
      have hpow : 0 < 2 ^ k := Nat.two_pow_pos k
      omega
    rw [Function.update_of_ne hlt.ne, ← hlist.pointer i hi hpos k hk]
    obtain hne | rfl := ne_or_eq i last
    · rw [Function.update_of_ne hne, hbytes i (by omega)]
    · rw [Function.update_self]
      rw [lfsCtz_eq hpos hlast] at hk
      apply readWord_congr
      intro j hj
      apply hcopy
      rw [pointers_of_pos hpos]
      omega

/-- A block that begins with its pointers comes behind the last one. -/
theorem CtzList.push (hlist : CtzList bytes blocks last)
    (hbytes : ∀ i ≤ last, bytes' (blocks i) = bytes (blocks i))
    (hpointers : ∀ k ≤ lfsCtz (last + 1),
      readWord (bytes' nblock) (4 * k) = blocks (last + 1 - 2 ^ k)) :
    CtzList bytes' (Function.update blocks (last + 1) nblock) (last + 1) where
  pointer i hi hpos k hk := by
    have hlt : i - 2 ^ k < last + 1 := by
      have hpow : 0 < 2 ^ k := Nat.two_pow_pos k
      omega
    rw [Function.update_of_ne hlt.ne]
    obtain hne | rfl := ne_or_eq i (last + 1)
    · rw [Function.update_of_ne hne, hbytes i (by omega)]
      exact hlist.pointer i (by omega) hpos k hk
    · rw [Function.update_self]
      exact hpointers k hk

/-- The list goes on at `off` of `nblock`, which begins with `written` and is not in use: its
next byte has its place there, and whatever is written from `off` on, the list that ends in
`nblock` is well formed and has the bytes it had. -/
structure GoesOn (blockSize : ℕ) (used : List Block) (bytes : Block → Bytes) (blocks : ℕ → Block)
    (size : ℕ) (nblock : Block) (off : ℕ) (written : Bytes) : Prop where
  free : nblock ∉ used
  off_eq : off = (lfsCtzIndex blockSize size).2
  list : ∀ bytes', (∀ block ∈ used, bytes' block = bytes block) →
    (∀ i < off, (bytes' nblock).getD i 0 = written.getD i 0) →
      CtzList bytes' (Function.update blocks (lfsCtzIndex blockSize size).1 nblock)
          (lfsCtzIndex blockSize size).1 ∧
        ∀ pos < size,
          ctzByte blockSize bytes'
              (Function.update blocks (lfsCtzIndex blockSize size).1 nblock) pos =
            ctzByte blockSize bytes blocks pos

variable {blockSize size off : ℕ} {hblock : 128 ≤ blockSize} {used : List Block} {written : Bytes}

theorem lfsCtzIndex_zero (hblock : 128 ≤ blockSize) : lfsCtzIndex blockSize 0 = (0, 0) := by
  have hzero : (ctzLayout blockSize hblock).At 0 0 0 :=
    Layout.at_zero (by norm_num [ctzLayout, ctzCount])
  exact lfsCtzIndex_eq hzero (by norm_num)

/-- A list without bytes starts with any block. -/
theorem goesOn_zero (hblock : 128 ≤ blockSize) (hfree : nblock ∉ used) :
    GoesOn blockSize used bytes blocks 0 nblock 0 written := by
  have hplace := lfsCtzIndex_zero hblock
  constructor
  · exact hfree
  · rw [hplace]
  · intro bytes' _ _
    rw [hplace]
    exact ⟨⟨fun i hi hpos => absurd hpos (by omega)⟩, fun pos hpos => absurd hpos
      (Nat.not_lt_zero _)⟩

/-- A copy of the last block, as far as that is written. -/
theorem goesOn_copy (hat : (ctzLayout blockSize hblock).At (size - 1) last off)
    (hpos : 0 < size) (hsize : size < 2 ^ 32) (hunfilled : off + 1 < blockSize)
    (hlist : CtzList bytes blocks last) (hused : ∀ i ≤ last, blocks i ∈ used)
    (hfree : nblock ∉ used)
    (hcopy : ∀ i < off + 1, written.getD i 0 = (bytes (blocks last)).getD i 0) :
    GoesOn blockSize used bytes blocks size nblock (off + 1) written := by
  have hcount := succ_lt_ctzCount hat (by omega)
  have hlast : last < 2 ^ 32 := lt_trans hat.index_lt (by norm_num [ctzLayout, ctzCount])
  have hnext := hat.succ hcount
  have hplace : (ctzLayout blockSize hblock).next (last, off) = (last, off + 1) := if_pos hunfilled
  rw [hplace, Nat.sub_add_cancel hpos] at hnext
  have hindex := lfsCtzIndex_eq hnext hsize
  constructor
  · exact hfree
  · rw [hindex]
  · intro bytes' hbytes hwritten
    rw [hindex]
    dsimp only
    have hle : 4 * pointers last ≤ off := hat.le_off
    constructor
    · apply hlist.replace hlast
      · exact fun i hi => hbytes _ (hused i hi.le)
      · intro i hi
        rw [hwritten i (by omega), hcopy i (by omega)]
    · intro pos hlt
      obtain ⟨index, byteOff, hbyte⟩ := exists_ctzAt hblock (show pos < 2 ^ 32 by omega)
      have hmono := hbyte.index_mono hat (by omega)
      rw [ctzByte, ctzByte, lfsCtzIndex_eq hbyte (by omega)]
      dsimp only
      obtain hne | rfl := ne_or_eq index last
      · rw [Function.update_of_ne hne, hbytes _ (hused index hmono)]
      · have hposition := hbyte.eq
        have hend := hat.eq
        rw [Function.update_self, hwritten _ (by omega), hcopy _ (by omega)]

/-- A new block behind a full one, with its pointers. -/
theorem goesOn_append (hat : (ctzLayout blockSize hblock).At (size - 1) last off)
    (hpos : 0 < size) (hsize : size < 2 ^ 32) (hfull : off + 1 = blockSize)
    (hlist : CtzList bytes blocks last) (hused : ∀ i ≤ last, blocks i ∈ used)
    (hfree : nblock ∉ used)
    (hpointers : ∀ k ≤ lfsCtz (last + 1), readWord written (4 * k) = blocks (last + 1 - 2 ^ k)) :
    GoesOn blockSize used bytes blocks size nblock (4 * (lfsCtz (last + 1) + 1)) written := by
  have hcount := succ_lt_ctzCount hat (by omega)
  have hlast : last + 1 < 2 ^ 32 := lt_trans hcount (by norm_num [ctzCount])
  have hnext := hat.succ hcount
  have hplace : (ctzLayout blockSize hblock).next (last, off) =
      (last + 1, 4 * (lfsCtz (last + 1) + 1)) := by
    have hword : (ctzLayout blockSize hblock).word = 4 := rfl
    have hnode : (ctzLayout blockSize hblock).node = blockSize := rfl
    rw [Layout.next, hnode, hword, if_neg (by dsimp only; omega), pointers_of_pos (Nat.succ_pos _),
      lfsCtz_eq (Nat.succ_pos _) hlast]
  rw [hplace, Nat.sub_add_cancel hpos] at hnext
  have hindex := lfsCtzIndex_eq hnext hsize
  constructor
  · exact hfree
  · rw [hindex]
  · intro bytes' hbytes hwritten
    rw [hindex]
    dsimp only
    constructor
    · apply hlist.push
      · exact fun i hi => hbytes _ (hused i hi)
      · intro k hk
        rw [← hpointers k hk]
        apply readWord_congr
        intro i hi
        exact hwritten _ (by omega)
    · intro pos hlt
      obtain ⟨index, byteOff, hbyte⟩ := exists_ctzAt hblock (show pos < 2 ^ 32 by omega)
      have hmono := hbyte.index_mono hat (by omega)
      rw [ctzByte, ctzByte, lfsCtzIndex_eq hbyte (by omega)]
      dsimp only
      rw [Function.update_of_ne (by omega), hbytes _ (hused index hmono)]

/-! ## The ladder of pointers -/

variable {base lfs : Lfs}

/-- The pointers of block `last + 1` from the one to block `last + 1 - 2 ^ i` on. -/
theorem delivers_ctzPointers (hlist : CtzList (diskBytes base.disk) blocks last)
    (hdevice : ∀ i ≤ last, OnDevice base (blocks i)) (hlast : last + 1 < 2 ^ 32) {skips i : ℕ}
    (hskips : i + skips ≤ twos (last + 1) + 1) :
    Delivers base (ctzPointers skips i (blocks (last + 1 - 2 ^ i)))
      (((List.range skips).map fun k => blocks (last + 1 - 2 ^ (i + k))).flatMap wordBytes) := by
  induction skips generalizing i with
  | zero => exact Delivers.pure _
  | succ skips ih =>
      rw [List.range_succ_eq_map, List.map_cons, List.flatMap_cons, List.map_map, ctzPointers,
        show i + 0 = i from rfl]
      by_cases hlong : skips = 0
      · rw [if_pos hlong, hlong]
        have hdata : wordBytes (blocks (last + 1 - 2 ^ i)) ++
            ((List.range 0).map ((fun k => blocks (last + 1 - 2 ^ (i + k))) ∘ Nat.succ)).flatMap
              wordBytes = wordBytes (blocks (last + 1 - 2 ^ i)) := List.append_nil _
        rw [hdata]
        exact Delivers.pure _
      · rw [if_neg hlong]
        have hdvd : 2 ^ (i + 1) ∣ last + 1 :=
          (two_pow_dvd_iff (show 0 < last + 1 by omega)).mpr (by omega)
        have hle : 2 ^ (i + 1) ≤ last + 1 := Nat.le_of_dvd (Nat.succ_pos last) hdvd
        have hdouble : 2 ^ (i + 1) = 2 ^ i + 2 ^ i := by rw [pow_succ, Nat.mul_two]
        have hpow : 0 < 2 ^ i := Nat.two_pow_pos i
        have hpointer : readWord (base.disk (blocks (last + 1 - 2 ^ i))).data (4 * i) =
            blocks (last + 1 - 2 ^ (i + 1)) := by
          have hexponent : i ≤ lfsCtz (last + 1 - 2 ^ i) := by
            rw [lfsCtz_eq (by omega) (by omega), ← two_pow_dvd_iff (by omega)]
            exact Nat.dvd_sub (Nat.dvd_trans (pow_dvd_pow 2 (Nat.le_succ i)) hdvd) (dvd_refl _)
          have hstored := hlist.pointer (last + 1 - 2 ^ i) (by omega) (by omega) i hexponent
          rw [show last + 1 - 2 ^ (i + 1) = last + 1 - 2 ^ i - 2 ^ i by omega]
          exact hstored
        have hrest := ih (i := i + 1) (by omega)
        have hshift : ((fun k => blocks (last + 1 - 2 ^ (i + k))) ∘ Nat.succ) =
            fun k => blocks (last + 1 - 2 ^ (i + 1 + k)) := by
          funext k
          rw [Function.comp_apply, Nat.succ_eq_add_one, Nat.add_right_comm, Nat.add_assoc]
        rw [hshift]
        apply (delivers_readBlock (hdevice _ (by omega))).bind
        rw [hpointer]
        exact hrest.cons _

/-! ## Attempts on fresh blocks -/

/-- `base`, while blocks that are not in use are allocated and written. -/
structure Extending (used : List Block) (base lfs : Lfs) : Prop where
  eq : lfs = { base with disk := lfs.disk, script := lfs.script, lookahead := lfs.lookahead }
  agree : AgreeOn used base.disk lfs.disk
  inv : AllocInv used lfs

namespace Extending

variable {lfs' : Lfs} {block : Block}

theorem covers (hextending : Extending used base lfs) (hreported : reported base = some used) :
    ScanCovers used lfs := by
  apply Reports.scanCovers
  intro blocks hblocks
  have hbare : lfs.bare = (base.withDisk lfs.disk).bare := by
    rw [hextending.eq]
    rfl
  rw [reported_congr hbare, reported_withDisk hreported hextending.agree] at hblocks
  rw [Option.some.inj hblocks]
  exact List.Subset.refl _

theorem cfg (hextending : Extending used base lfs) : lfs.cfg = base.cfg := by rw [hextending.eq]

theorem device (hextending : Extending used base lfs) (hdevice : OnDevice base block) :
    OnDevice lfs block := by
  rw [hextending.eq]
  exact hdevice

/-- The addresses of a device fit words. -/
theorem word_lt (hextending : Extending used base lfs) (hdevice : OnDevice lfs block) :
    block < 2 ^ 32 := by
  have hpos := hextending.inv.valid.pos
  have hbound := hextending.inv.valid.bound
  have hlt : block < lfs.blockCount := not_le.mp fun hle => hdevice ⟨hpos.ne', hle⟩
  have hword : lfs.blockCount ≤ 2 ^ 32 := by omega
  exact lt_of_lt_of_le hlt hword

theorem alloc (hextending : Extending used base lfs) (hhanded : Handed used lfs block lfs') :
    Extending used base lfs' where
  eq := by rw [hhanded.step.eq, hextending.eq]
  agree := by
    rw [hhanded.step.disk]
    exact hextending.agree
  inv := hhanded.inv

theorem reads (hextending : Extending used base lfs) (hreads : Reads lfs lfs') :
    Extending used base lfs' where
  eq := by rw [hreads.eq, hextending.eq]
  agree := by
    rw [hreads.eq]
    exact hextending.agree
  inv := by
    rw [hreads.eq]
    exact ⟨hextending.inv.valid, hextending.inv.room, hextending.inv.clear⟩

theorem wrote (hextending : Extending used base lfs) {image : BlockImage} (hfree : block ∉ used)
    (hwrote : Wrote block image lfs lfs') : Extending used base lfs' where
  eq := by rw [hwrote.eq, hextending.eq]
  agree := by
    rw [hwrote.eq]
    intro other hother
    dsimp only
    have hne : other ≠ block := by
      rintro rfl
      exact hfree hother
    rw [Function.update_of_ne hne]
    exact hextending.agree other hother
  inv := by
    rw [hwrote.eq]
    exact ⟨hextending.inv.valid, hextending.inv.room, hextending.inv.clear⟩

theorem marks (hextending : Extending used base lfs) (hmarks : Marks lfs lfs') :
    Extending used base lfs' where
  eq := by rw [hmarks.eq, hextending.eq]
  agree := by
    rw [hmarks.disk]
    exact hextending.agree
  inv := by
    have hvalid := hmarks.valid hextending.inv.valid
    refine ⟨hvalid, ?_, ?_⟩
    · rw [hmarks.eq]
      exact hextending.inv.room
    · intro i hnext hsize hbit
      have hmono := hmarks.mono
      rw [hmarks.eq] at hnext hsize hbit ⊢
      apply hextending.inv.clear i hnext hsize
      cases hbefore : lfs.lookahead.buffer i with
      | false => rfl
      | true => exact absurd (hmono i hbefore) (by simpa using hbit)

end Extending

/-- File data on a block, whatever it held before. -/
theorem outcome_progData (block : Block) (off : ℕ) (bytes : Bytes) (lfs : Lfs) :
    Outcome (progData block off bytes)
      (fun _ lfs' => ∃ image, Wrote block image lfs lfs' ∧
        image.data = overwrite (lfs.disk block).data off bytes)
      (fun _ lfs' => ∃ image, Wrote block image lfs lfs') lfs := by
  rw [progData, outcome_bind, outcome_get]
  apply (outcome_devProg block _ _ lfs).imp
  · exact fun _ lfs' h => ⟨_, h, rfl⟩
  · exact fun _ lfs' h => h.elim (fun h => ⟨_, h⟩) fun h => ⟨_, h.2.2⟩

/-- What is behind a write on an erased block. -/
theorem overwrite_nil (bytes : Bytes) : overwrite [] 0 bytes = bytes := by
  simp [overwrite]

/-- An extension that succeeds. -/
def Extends (base : Lfs) (used : List Block) (blocks : ℕ → Block) (size : ℕ)
    (result : Block × ℕ) (lfs' : Lfs) : Prop :=
  AgreeOn used base.disk lfs'.disk ∧
    GoesOn base.cfg.blockSize used (diskBytes base.disk) blocks size result.1 result.2
      (diskBytes lfs'.disk result.1)

/-- The stored bytes go to the erased block, or another block is tried. -/
theorem outcome_attempt_prog {retry : FsM (Block × ℕ)} {post : Block × ℕ → Lfs → Prop}
    {nblock : Block} {bytes : Bytes} {result : Block × ℕ} (hfree : nblock ∉ used)
    (hextending : Extending used base lfs) (herased : (lfs.disk nblock).data = [])
    (hretry : ∀ lfs', Extending used base lfs' → Outcome retry post (fun _ _ => True) lfs')
    (hpost : ∀ lfs', Extending used base lfs' → diskBytes lfs'.disk nblock = bytes →
      post result lfs') :
    Outcome (do
      match ← tryError (progData nblock 0 bytes) with
      | .error .corrupt =>
          lfsAllocLookahead nblock
          retry
      | .error e => failWith e
      | .ok _ => return result) post (fun _ _ => True) lfs := by
  rw [outcome_bind]
  apply (outcome_progData nblock 0 bytes lfs).tryError
  · intro _ lfs' h
    obtain ⟨image, hwrote, hdata⟩ := h
    apply hpost lfs' (hextending.wrote hfree hwrote)
    rw [diskBytes, hwrote.eq]
    dsimp only
    rw [Function.update_self, hdata, herased, overwrite_nil]
  · intro e lfs' h
    obtain ⟨image, hwrote⟩ := h
    cases e
    case corrupt =>
      change Outcome (lfsAllocLookahead nblock >>= fun _ => retry) _ _ lfs'
      rw [outcome_bind]
      apply (scans_lfsAllocLookahead nblock lfs').imp
      · exact fun _ lfs'' hmarks => hretry lfs'' ((hextending.wrote hfree hwrote).marks hmarks)
      · exact fun _ _ _ => trivial
    all_goals trivial
  · exact fun _ _ _ _ => trivial

/-- The place of the next byte. -/
theorem lfsCtzIndex_next (hblock : 128 ≤ blockSize) (hpos : 0 < size) (hsize : size < 2 ^ 32) :
    lfsCtzIndex blockSize size = ctzNext blockSize (lfsCtzIndex blockSize (size - 1)) := by
  obtain ⟨last, off, hat⟩ := exists_ctzAt hblock (show size - 1 < 2 ^ 32 by omega)
  have hcount := succ_lt_ctzCount hat (by omega)
  have hnext := hat.succ hcount
  rw [Nat.sub_add_cancel hpos] at hnext
  have hplace : ctzNext blockSize (last, off) = (ctzLayout blockSize hblock).next (last, off) :=
    ctzNext_eq hcount
  rw [lfsCtzIndex_eq hat (by omega), hplace]
  exact lfsCtzIndex_eq hnext hsize

theorem lfsCtzExtendGo_extends (hblock : 128 ≤ base.cfg.blockSize) (hsize : size < 2 ^ 32)
    (hreported : reported base = some used)
    (hlist : 0 < size → CtzList (diskBytes base.disk) blocks
      (lfsCtzIndex base.cfg.blockSize (size - 1)).1)
    (hused : 0 < size → ∀ i ≤ (lfsCtzIndex base.cfg.blockSize (size - 1)).1,
      blocks i ∈ used ∧ OnDevice base (blocks i))
    (fuel : ℕ) (hextending : Extending used base lfs) :
    Outcome (lfsCtzExtendGo (blocks (lfsCtzIndex base.cfg.blockSize (size - 1)).1) size fuel)
      (Extends base used blocks size) (fun _ _ => True) lfs := by
  induction fuel generalizing lfs with
  | zero => trivial
  | succ fuel ih =>
      rw [lfsCtzExtendGo, outcome_bind]
      apply (lfsAlloc_handed (hextending.covers hreported) hextending.inv).imp
      · intro nblock lfs' hhanded
        have hfree := hhanded.free
        have hextending := hextending.alloc hhanded
        rw [outcome_bind]
        apply (outcome_lfsBdErase nblock lfs').tryError
        · intro _ lfs' hwrote
          have hextending := hextending.wrote hfree hwrote
          have herased : (lfs'.disk nblock).data = [] := by
            rw [hwrote.eq]
            dsimp only
            rw [Function.update_self]
          by_cases hzero : size = 0
          · subst hzero
            exact ⟨hextending.agree, goesOn_zero hblock hfree⟩
          · have hpos : 0 < size := Nat.pos_of_ne_zero hzero
            obtain ⟨last, off, hat⟩ := exists_ctzAt hblock (show size - 1 < 2 ^ 32 by omega)
            have hindex := lfsCtzIndex_eq hat (by omega)
            rw [hindex] at hlist hused ih ⊢
            dsimp only at hlist hused ih ⊢
            rw [if_neg hzero, outcome_bind, outcome_get, hextending.cfg, hindex]
            dsimp only
            have hused' : ∀ i ≤ last, blocks i ∈ used := fun i hi => (hused hpos i hi).1
            have hdevice : ∀ i ≤ last, OnDevice lfs' (blocks i) :=
              fun i hi => hextending.device (hused hpos i hi).2
            have hsame : ∀ i ≤ last, lfs'.disk (blocks i) = base.disk (blocks i) :=
              fun i hi => hextending.agree _ (hused' i hi)
            by_cases hunfilled : off + 1 ≠ base.cfg.blockSize
            · rw [if_pos hunfilled, outcome_bind]
              apply (delivers_readBlock (hdevice last (le_refl _)) lfs' (Reads.refl lfs')).imp
              · intro image middle h
                obtain ⟨rfl, hreads⟩ := h
                have hextending := hextending.reads hreads
                apply outcome_attempt_prog hfree hextending (by rw [hreads.eq]; exact herased)
                  (fun lfs'' hextending => ih hextending)
                intro lfs'' hextending hwritten
                refine ⟨hextending.agree, ?_⟩
                have hlt := hat.off_lt
                apply goesOn_copy hat hpos hsize (lt_of_le_of_ne hlt hunfilled) (hlist hpos)
                  hused' hfree
                intro i hi
                rw [hwritten, getD_slice, if_pos hi, Nat.zero_add, hsame last (le_refl _)]
                rfl
              · exact fun _ _ _ => trivial
            · rw [if_neg hunfilled, outcome_bind]
              have hcount := succ_lt_ctzCount hat (by omega)
              have hword : last + 1 < 2 ^ 32 := lt_trans hcount (by norm_num [ctzCount])
              have hlist' : CtzList (diskBytes lfs'.disk) blocks last := by
                constructor
                intro i hi hpos k hk
                rw [diskBytes, hsame i hi]
                exact (hlist (by omega)).pointer i hi hpos k hk
              have hladder := delivers_ctzPointers hlist' hdevice hword
                (show 0 + (lfsCtz (last + 1) + 1) ≤ twos (last + 1) + 1 by
                  rw [lfsCtz_eq (by omega) hword]
                  omega)
              apply (hladder lfs' (Reads.refl lfs')).imp
              · intro pointers middle h
                obtain ⟨rfl, hreads⟩ := h
                have hextending := hextending.reads hreads
                apply outcome_attempt_prog hfree hextending (by rw [hreads.eq]; exact herased)
                  (fun lfs'' hextending => ih hextending)
                intro lfs'' hextending hwritten
                refine ⟨hextending.agree, ?_⟩
                apply goesOn_append hat hpos hsize (not_not.mp hunfilled) (hlist hpos) hused' hfree
                intro k hk
                rw [hwritten, readWord_flatMap]
                · rw [List.getD_eq_getElem _ _ (by simpa using Nat.lt_succ_of_le hk),
                    List.getElem_map, List.getElem_range, Nat.zero_add]
                · intro word hmem
                  obtain ⟨j, -, rfl⟩ := List.mem_map.mp hmem
                  have hpow : 0 < 2 ^ (0 + j) := Nat.two_pow_pos _
                  exact hextending.word_lt (hextending.device (hused hpos _ (by omega)).2)
                · simpa using Nat.lt_succ_of_le hk
              · exact fun _ _ _ => trivial
        · intro e lfs' h
          have hextending : Extending used base lfs' :=
            h.elim hextending.reads (hextending.wrote hfree)
          cases e
          case corrupt =>
            change Outcome (lfsAllocLookahead nblock >>= fun _ => _) _ _ lfs'
            rw [outcome_bind]
            apply (scans_lfsAllocLookahead nblock lfs').imp
            · exact fun _ lfs'' hmarks => ih (hextending.marks hmarks)
            · exact fun _ _ _ => trivial
          all_goals trivial
        · exact fun _ _ _ _ => trivial
      · exact fun _ _ _ => trivial

/-- `lfs_ctz_extend` writes no block in use.  The block it returns has room for the next byte
at the offset it returns, and the list that ends in it has the bytes it had. -/
theorem lfsCtzExtend_extends {lfs : Lfs} (haccepted : lfs.cfg.Accepted) {size : ℕ}
    (hsize : size < 2 ^ 32) (hreported : reported lfs = some used) (hinv : AllocInv used lfs)
    (hlist : 0 < size → CtzList (diskBytes lfs.disk) blocks
      (lfsCtzIndex lfs.cfg.blockSize (size - 1)).1)
    (hused : 0 < size → ∀ i ≤ (lfsCtzIndex lfs.cfg.blockSize (size - 1)).1,
      blocks i ∈ used ∧ OnDevice lfs (blocks i)) :
    Outcome (lfsCtzExtend (blocks (lfsCtzIndex lfs.cfg.blockSize (size - 1)).1) size)
      (fun result lfs' => AgreeOn used lfs.disk lfs'.disk ∧
        (size = 0 → result.2 = 0) ∧
        (0 < size → (lfsCtzIndex lfs.cfg.blockSize (size - 1)).2 + 1 < lfs.cfg.blockSize →
          result.2 = (lfsCtzIndex lfs.cfg.blockSize (size - 1)).2 + 1) ∧
        (0 < size → (lfsCtzIndex lfs.cfg.blockSize (size - 1)).2 + 1 = lfs.cfg.blockSize →
          result.2 = ctzPointerBytes ((lfsCtzIndex lfs.cfg.blockSize (size - 1)).1 + 1)) ∧
        GoesOn lfs.cfg.blockSize used (diskBytes lfs.disk) blocks size result.1 result.2
          (diskBytes lfs'.disk result.1))
      (fun _ _ => True) lfs := by
  have hblock := haccepted.block_ge
  have hstart : Extending used lfs lfs := ⟨rfl, fun _ _ => rfl, hinv⟩
  apply (lfsCtzExtendGo_extends hblock hsize hreported hlist hused retryFuel hstart).imp
  · intro result lfs' hextends
    obtain ⟨hagree, hgoes⟩ := hextends
    have hoff := hgoes.off_eq
    refine ⟨hagree, ?_, ?_, ?_, hgoes⟩
    · rintro rfl
      rw [hoff, lfsCtzIndex_zero hblock]
    · intro hpos hunfilled
      rw [hoff, lfsCtzIndex_next hblock hpos hsize, ctzNext, if_pos hunfilled]
    · intro hpos hfull
      rw [hoff, lfsCtzIndex_next hblock hpos hsize, ctzNext, if_neg (by omega)]
  · exact fun _ _ _ => trivial

/-- A file with one full block that is not committed yet. -/
def fullBlockFilesystem : Lfs :=
  { movingFilesystem {} with
    mlist := [{ growingFile with flags := { write := true, dirty := true } }]
    lookahead := { ckpoint := 128 } }

theorem allocInv_fullBlock (used : List Block) : AllocInv used fullBlockFilesystem where
  valid := by constructor <;> decide
  room := by
    change 128 + min (Lookahead.lookaheadBits 16) 128 ≤ 2 ^ 32
    decide
  clear := fun i _ hsize => absurd hsize (Nat.not_lt_zero i)

/-- The second block of the file begins with one pointer. -/
theorem lfsCtzExtend_extends_fullBlock :
    endsWith (fun result => result.2 == 4) (lfsCtzExtend 10 512 fullBlockFilesystem) = true ∧
      Outcome (lfsCtzExtend 10 512)
        (fun result lfs' => result.2 = 4 ∧
          GoesOn 512 [0, 1, 8, 9, 2, 3, 8, 10] (diskBytes fullBlockFilesystem.disk)
              (fun _ => 10) 512
            result.1 result.2 (diskBytes lfs'.disk result.1))
        (fun _ _ => True) fullBlockFilesystem := by
  refine ⟨by decide +kernel, ?_⟩
  have hindex : lfsCtzIndex 512 (512 - 1) = (0, 511) := by decide +kernel
  have hreported : reported fullBlockFilesystem = some [0, 1, 8, 9, 2, 3, 8, 10] := by
    decide +kernel
  have hlist : 0 < 512 → CtzList (diskBytes fullBlockFilesystem.disk) (fun _ => 10)
      (lfsCtzIndex 512 (512 - 1)).1 := by
    intro _
    rw [hindex]
    exact ⟨fun i hi hpos => absurd hpos (by omega)⟩
  have hused : 0 < 512 → ∀ i ≤ (lfsCtzIndex 512 (512 - 1)).1,
      (fun _ : ℕ => 10) i ∈ [0, 1, 8, 9, 2, 3, 8, 10] ∧ OnDevice fullBlockFilesystem 10 := by
    have hmem : 10 ∈ [0, 1, 8, 9, 2, 3, 8, 10] := by decide
    have hdevice : OnDevice fullBlockFilesystem 10 := by
      change ¬(128 ≠ 0 ∧ 128 ≤ 10)
      decide
    exact fun _ i _ => ⟨hmem, hdevice⟩
  apply (lfsCtzExtend_extends defaultConfig_accepted (show 512 < 2 ^ 32 by norm_num) hreported
    (allocInv_fullBlock _) hlist hused).imp
  · intro result lfs' h
    obtain ⟨-, -, -, hfull, hgoes⟩ := h
    have hoff := hfull (by norm_num) (congrArg (fun place : ℕ × ℕ => place.2 + 1) hindex)
    refine ⟨hoff.trans ?_, hgoes⟩
    decide +kernel
  · exact fun _ _ _ => trivial

end Littlefs
