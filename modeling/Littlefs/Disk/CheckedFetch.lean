import Littlefs.Disk.Getinfo
import Littlefs.Disk.Lookups
import Littlefs.Lib.Checked
import Littlefs.Lib.Machines

/-!
# Fetching arbitrary bytes

`lfs_dir_fetchmatch` with the callbacks of its callers, as a build with overflow
checks runs it: every sum and every difference of machine words is checked.  The
scan takes its ids, its splices and its sizes from the disk, before the checksum of
the commit has been seen.
-/

namespace Littlefs.Disk

open Words

/-! ## Checked steps -/

/-- A sum or a difference that may overflow. -/
def overflowing {α : Type} : Option α → Except Fault α
  | some value => .ok value
  | none => .error (.panic .overflow)

/-- `a + b` of two `i32`s. -/
def addI32 (a b : Word) : Except Fault Word :=
  if BitVec.saddOverflow a b then .error (.panic .overflow) else .ok (a + b)

/-- The loop of `lfs_bd_crc`. -/
def Store.crcCheckedGo (store : Store) (hint : ℕ) (block : Word) (off size : ℕ) :
    ℕ → ℕ → Word → Except Fault (Word × Bool)
  | 0, _, _ => .error .outOfFuel
  | fuel + 1, i, crc =>
      if i < size then do
        let diff := min (size - i) 8
        let _ ← overflowing (Checked.sub hint i)
        match store.read block (off + i) diff with
        | none => pure (crc, false)
        | some dat => Store.crcCheckedGo store hint block off size fuel (i + diff) (lfsCrc crc dat)
      else
        pure (crc, true)

/-- `lfs_bd_crc`. -/
def Store.crcChecked (store : Store) (hint : ℕ) (block : Word) (off size : ℕ) (crc : Word) :
    Except Fault (Word × Bool) :=
  store.crcCheckedGo hint block off size (size + 1) 0 crc

/-- The loop of `lfs_bd_cmp`. -/
def Store.cmpCheckedGo (store : Store) (hint : ℕ) (block : Word) (off : ℕ) :
    ℕ → ℕ → List Octet → Except Fault (Option Ordering)
  | 0, _, _ => .error .outOfFuel
  | fuel + 1, i, buffer =>
      if buffer = [] then
        pure (some .eq)
      else do
        let diff := min buffer.length 8
        let _ ← overflowing (Checked.sub hint i)
        match store.read block (off + i) diff with
        | none => pure none
        | some dat =>
            match cmpBytes dat (buffer.take diff) with
            | .eq => Store.cmpCheckedGo store hint block off fuel (i + diff) (buffer.drop diff)
            | order => pure (some order)

/-- `lfs_bd_cmp`. -/
def Store.cmpChecked (store : Store) (hint : ℕ) (block : Word) (off : ℕ) (buffer : List Octet) :
    Except Fault (Option Ordering) :=
  store.cmpCheckedGo hint block off (buffer.length + 1) 0 buffer

/-! ## The callers -/

abbrev CheckedCallback := Store → Word → Word → ℕ → Except Fault (Option Ordering)

/-- `lfs_dir_find_match`. -/
def findMatchChecked (name : List Octet) : CheckedCallback := fun store tag block off => do
  let diff := min name.length (tagOf tag).size
  match ← store.cmpChecked diff block off (name.take diff) with
  | some .eq => pure (some (compare name.length (tagOf tag).size))
  | res => pure res

/-- Who fetches with a match: `lfs_dir_fetch`, `lfs_dir_find`, `lfs_mount` for the
superblock entry, and `lfs_fs_parent`. -/
inductive Caller
  | fetch
  | find (name : List Octet)
  | mount
  | parent (pair : WordPair)

def Caller.query : Caller → Query
  | .fetch => Query.fetch
  | .find name => Query.find name
  | .mount => Lookup.superblock.query
  | .parent pair => Query.parent pair

/-- The callback; `lfs_dir_fetch` has none, and a call of it would unwrap `None`. -/
def Caller.cb : Caller → CheckedCallback
  | .fetch => fun _ _ _ _ => .error (.panic .unwrapNone)
  | .find name => findMatchChecked name
  | .mount => findMatchChecked [0x6c, 0x69, 0x74, 0x74, 0x6c, 0x65, 0x66, 0x73]
  | .parent pair => fun store tag block off => pure (parentMatch pair store tag block off)

/-! ## The scan of one block -/

/-- `lfs_tag_id(tag) + 1` is a sum of two `u16`s. -/
def Temp.nameChecked (temp : Temp) (tag : Tag) : Except Fault Temp :=
  if temp.count ≤ tag.id then
    if tag.id + 1 < 2 ^ 16 then pure { temp with count := tag.id + 1 }
    else .error (.panic .overflow)
  else
    pure temp

def Temp.spliceChecked (temp : Temp) (tag : Word) : Except Fault Temp := do
  let count := (((temp.count : ℤ) + (tagOf tag).splice) % 2 ^ 16).toNat
  let deleteTag := mktag tyDelete 0 0 ||| (mktag 0 0x3ff 0 &&& temp.besttag)
  if tag = deleteTag then
    pure { temp with count := count, besttag := temp.besttag ||| 0x80000000 }
  else if temp.besttag ≠ nullWord ∧ (tagOf tag).id ≤ (tagOf temp.besttag).id then do
    let besttag ← addI32 temp.besttag (mkdiff (tagOf tag).splice)
    pure { temp with count := count, besttag := besttag }
  else
    pure { temp with count := count }

def Store.noteChecked (store : Store) (block : Word) (data : ℕ) (tag : Word) (temp : Temp)
    (fcrc : Option LfsFcrc) : Except Fault (Option (Temp × Option LfsFcrc)) :=
  if (tagOf tag).type1 = tyName then do
    let temp ← temp.nameChecked (tagOf tag)
    pure (some (temp, fcrc))
  else if (tagOf tag).type1 = tySplice then do
    let temp ← temp.spliceChecked tag
    pure (some (temp, fcrc))
  else if (tagOf tag).type1 = tyTail then
    match store.read block data 8 with
    | none => pure none
    | some buffer => pure (some (temp.setTail store.order (tagOf tag) buffer, fcrc))
  else if (tagOf tag).type3 = tyFcrc then
    match store.read block data 8 with
    | none => pure none
    | some buffer => pure (some (temp, some (LfsFcrc.ofBytes store.order buffer)))
  else
    pure (some (temp, fcrc))

def Store.answerChecked (store : Store) (caller : Caller) (block : Word) (data : ℕ) (tag : Word)
    (temp : Temp) : Except Fault (Option Temp) :=
  if caller.query.selects tag then do
    match ← caller.cb store tag block data with
    | none => pure none
    | some res => pure (some (temp.select tag res))
  else
    pure (some temp)

/-- A CRC tag; its data is at `data`, and it ends at `stop`. -/
def Store.crcTurnChecked (store : Store) (pass : Pass) (off data : ℕ) (tag crc : Word) :
    Except Fault Turn :=
  match store.read pass.dir.pair.1 data 4 with
  | none => pure (.stop false)
  | some dcrc =>
      if crc ≠ ofLeBytes dcrc then pure (.stop false)
      else pure (.next (pass.publish store.order off tag crc))

/-- A tag of another kind. -/
def Store.entryTurnChecked (store : Store) (caller : Caller) (pass : Pass) (off data : ℕ)
    (tag crc : Word) : Except Fault Turn := do
  let block := pass.dir.pair.1
  match ← store.crcChecked store.cfg.blockSize block data ((tagOf tag).dsize - 4) crc with
  | (_, false) => pure (.stop false)
  | (crc, true) =>
      match ← store.noteChecked block data tag pass.temp pass.fcrc with
      | none => pure (.stop false)
      | some (temp, fcrc) =>
          match ← store.answerChecked caller block data tag temp with
          | none => pure (.stop false)
          | some temp =>
              pure (.next { pass with
                off := off, ptag := tag, crc := crc, temp := temp, fcrc := fcrc })

/-- A turn of the loop; its offsets are `u32`s. -/
def Store.turnChecked (store : Store) (caller : Caller) (pass : Pass) : Except Fault Turn := do
  let off ← overflowing (Checked.add pass.off (tagOf pass.ptag).dsize)
  match store.read pass.dir.pair.1 off 4 with
  | none => pure (.stop false)
  | some tagBuf =>
      let crc := lfsCrc pass.crc tagBuf
      let tag := ofBeBytes tagBuf ^^^ pass.ptag
      if ¬isvalid tag then
        pure (.stop ((tagOf pass.ptag).type2 == tyCcrc))
      else do
        let stop ← overflowing (Checked.add off (tagOf tag).dsize)
        if store.cfg.blockSize < stop then
          pure (.stop false)
        else do
          let data ← overflowing (Checked.add off 4)
          if (tagOf tag).type2 = tyCcrc then
            store.crcTurnChecked pass off data tag crc
          else
            store.entryTurnChecked caller pass off data tag crc

def Store.scanChecked (store : Store) (caller : Caller) : ℕ → Pass → Except Fault (Pass × Bool)
  | 0, _ => .error .outOfFuel
  | fuel + 1, pass => do
      match ← store.turnChecked caller pass with
      | .next pass => Store.scanChecked store caller fuel pass
      | .stop maybeerased => pure (pass, maybeerased)

/-- The pass over the first block of a pair. -/
def Store.scanFrontChecked (store : Store) (caller : Caller) (pair : WordPair) :
    Except Fault (Pass × Bool) :=
  store.scanChecked caller (store.cfg.blockSize + 1) (store.firstPass pair)

/-! ## The pair -/

def Store.checkErasedChecked (store : Store) (pass : Pass) (maybeerased : Bool) :
    Except Fault Bool :=
  match pass.fcrc with
  | none => pure false
  | some fcrc =>
      if maybeerased && pass.dir.off % store.cfg.progSize == 0 then do
        let (crc, _) ← store.crcChecked store.cfg.blockSize pass.dir.pair.1 pass.dir.off
          fcrc.size.toNat 0xffffffff
        pure (crc == fcrc.crc)
      else
        pure false

def Store.syntheticMoveChecked (store : Store) (pair : WordPair) (besttag : Word) :
    Except Fault Word :=
  if store.gdisk.hasmovehere pair then
    if (tagOf store.gdisk.tag).id = (tagOf besttag).id then
      pure (besttag ||| 0x80000000)
    else if besttag ≠ nullWord ∧ (tagOf store.gdisk.tag).id < (tagOf besttag).id then
      subI32 true besttag (mktag 0 1 0)
    else
      pure besttag
  else
    pure besttag

def Store.concludeChecked (store : Store) (pass : Pass) (maybeerased : Bool) :
    Except Fault Fetched := do
  let erased ← store.checkErasedChecked pass maybeerased
  let dir := { pass.dir with erased := erased }
  let besttag ← store.syntheticMoveChecked dir.pair pass.besttag
  pure
    { dir := dir
      id := min (tagOf besttag).id dir.count
      result :=
        if isvalid besttag then .found besttag
        else if (tagOf besttag).id < dir.count then .noEntry
        else .next
      seed := pass.seed }

/-- `lfs_dir_fetchmatch`; an `Err(Corrupt)` is `none`. -/
def lfsDirFetchmatchChecked (store : Store) (caller : Caller) (pair : WordPair) :
    Except Fault (Option Fetched) :=
  if store.blockCount ≠ 0 ∧
      (store.blockCount ≤ pair.1.toNat ∨ store.blockCount ≤ pair.2.toNat) then
    pure none
  else do
    let newer := (store.read pair.2 0 4).isSome &&
      decide (0 < lfsScmp (store.revision pair.2) (store.revision pair.1))
    let pair := if newer then pair.swap else pair
    let (pass, maybeerased) ← store.scanFrontChecked caller pair
    if pass.dir.off ≠ 0 then do
      let fetched ← store.concludeChecked pass maybeerased
      pure (some fetched)
    else do
      let (pass, maybeerased) ← store.scanFrontChecked caller pair.swap
      if pass.dir.off ≠ 0 then do
        let fetched ← store.concludeChecked pass maybeerased
        pure (some fetched)
      else
        pure none

/-! ## What keeps a fetch safe -/

/-- The tag that a turn reads. -/
def Store.tagAt (store : Store) (pass : Pass) : Option Word :=
  (store.read pass.dir.pair.1 (pass.off + (tagOf pass.ptag).dsize) 4).map fun tagBuf =>
    ofBeBytes tagBuf ^^^ pass.ptag

/-- The splice of `tag` is added to the best tag so far. -/
def Temp.Shifts (temp : Temp) (tag : Word) : Prop :=
  tag ≠ mktag tyDelete 0 0 ||| (mktag 0 0x3ff 0 &&& temp.besttag) ∧ temp.besttag ≠ nullWord ∧
    (tagOf tag).id ≤ (tagOf temp.besttag).id

/-- A turn that reads a valid tag finds its end in a word; and where it adds the splice
to the best tag, the sum is in an `i32`. -/
structure Store.TurnFits (store : Store) (pass : Pass) (tag : Word) : Prop where
  end_lt : pass.off + (tagOf pass.ptag).dsize + (tagOf tag).dsize < 2 ^ 32
  sum_fits : pass.off + (tagOf pass.ptag).dsize + (tagOf tag).dsize ≤ store.cfg.blockSize →
    (tagOf tag).type1 = tySplice → pass.temp.Shifts tag →
      -2 ^ 31 ≤ pass.temp.besttag.toInt + 2 ^ 10 * (tagOf tag).splice ∧
        pass.temp.besttag.toInt + 2 ^ 10 * (tagOf tag).splice < 2 ^ 31

def Store.Fits (store : Store) (pass : Pass) : Prop :=
  ∀ tag, store.tagAt pass = some tag → isvalid tag = true → store.TurnFits pass tag

/-- One turn, as a step that goes on or halts. -/
def Store.step (store : Store) (query : Query) (pass : Pass) : Pass ⊕ Bool :=
  match store.turn query pass with
  | .next pass => .inl pass
  | .stop maybeerased => .inr maybeerased

/-- Every turn of the scan of the first block fits. -/
def Store.ScanFits (store : Store) (query : Query) (pair : WordPair) : Prop :=
  ∀ pass, Machines.Reaches (store.step query) (store.firstPass pair) pass → store.Fits pass

/-- Every turn of a fetch fits: in the newer block, and in the older one where the
newer one holds no complete commit. -/
structure Store.Calm (store : Store) (query : Query) (pair : WordPair) : Prop where
  first : store.InRange pair → store.ScanFits query (store.ordered pair)
  second : store.InRange pair → (store.scanFront query (store.ordered pair)).1.dir.off = 0 →
    store.ScanFits query (store.ordered pair).swap

/-- A fetch ends without a panic, and where it does not answer `Err(Corrupt)`, it leaves
the end of a log inside the block. -/
def Store.FetchesSafely (store : Store) (caller : Caller) (pair : WordPair) : Prop :=
  ∃ result, lfsDirFetchmatchChecked store caller pair = .ok result ∧
    ∀ fetched, result = some fetched →
      0 < fetched.dir.off ∧ fetched.dir.off ≤ store.cfg.blockSize

variable {store : Store} {caller : Caller} {pass pass' : Pass} {fuel size off : ℕ}
  {block tag crc : Word} {pair : WordPair} {temp : Temp}

/-! ## The checksum and the comparison -/

theorem ok_bind {α β : Type} (value : α) (next : α → Except Fault β) :
    (Except.ok value >>= next) = next value :=
  rfl

theorem error_bind {α β : Type} (failure : Fault) (next : α → Except Fault β) :
    (Except.error failure >>= next) = .error failure :=
  rfl

theorem overflowing_sub {a b : ℕ} (hle : b ≤ a) :
    overflowing (Checked.sub a b) = .ok (a - b) := by
  rw [Checked.sub_eq hle]
  rfl

theorem overflowing_add {a b : ℕ} (hlt : a + b < 2 ^ 32) :
    overflowing (Checked.add a b) = .ok (a + b) := by
  rw [Checked.add_eq hlt]
  rfl

theorem overflowing_add_ge {a b : ℕ} (hge : 2 ^ 32 ≤ a + b) :
    overflowing (Checked.add a b) = .error (.panic .overflow) := by
  rw [Checked.add, if_neg (Nat.not_lt.mpr hge)]
  rfl

theorem Store.read_end {data : List Octet} (hread : store.read block off size = some data) :
    off + size ≤ store.cfg.blockSize := by
  rw [Store.read] at hread
  split at hread
  · cases hread
  · rename_i hinside
    exact Nat.le_of_not_lt fun hlt => hinside (Or.inl hlt)

/-- The hint of a checksum does not run out before the block does. -/
theorem Store.crcCheckedGo_eq {i fuel' : ℕ} (hhint : i ≤ store.cfg.blockSize)
    (hfuel : size - i < fuel)
    (hfuel' : size - i ≤ fuel') :
    store.crcCheckedGo store.cfg.blockSize block off size fuel i crc =
      .ok (store.crcGo block fuel' (off + i) (size - i) crc) := by
  induction fuel generalizing i fuel' crc with
  | zero => exact absurd hfuel (Nat.not_lt_zero _)
  | succ fuel ih =>
      rw [Store.crcCheckedGo]
      by_cases hmore : i < size
      · simp only [if_pos hmore, overflowing_sub hhint, ok_bind]
        cases fuel' with
        | zero => omega
        | succ fuel' =>
            have hsome : size - i ≠ 0 := by omega
            rw [Store.crcGo, if_neg hsome]
            cases hread : store.read block (off + i) (min (size - i) 8) with
            | none => rfl
            | some dat =>
                have hend := Store.read_end hread
                have hplace : off + i + min (size - i) 8 = off + (i + min (size - i) 8) := by omega
                have hleft : size - i - min (size - i) 8 = size - (i + min (size - i) 8) := by omega
                simp only [hplace, hleft]
                apply ih
                · omega
                · omega
                · omega
      · have hdone : size - i = 0 := by omega
        rw [if_neg hmore, hdone]
        cases fuel' <;> rfl

theorem Store.crcChecked_eq (store : Store) (block : Word) (off size : ℕ) (crc : Word) :
    store.crcChecked store.cfg.blockSize block off size crc =
      .ok (store.crc block off size crc) :=
  Store.crcCheckedGo_eq (Nat.zero_le _) (Nat.lt_succ_self _) (le_refl _)

theorem Store.cmpCheckedGo_eq {i hint fuel' : ℕ} {buffer : List Octet}
    (hhint : i + buffer.length ≤ hint) (hfuel : buffer.length < fuel)
    (hfuel' : buffer.length ≤ fuel') :
    store.cmpCheckedGo hint block off fuel i buffer =
      .ok (store.cmpGo block fuel' (off + i) buffer) := by
  induction fuel generalizing i fuel' buffer with
  | zero => exact absurd hfuel (Nat.not_lt_zero _)
  | succ fuel ih =>
      rw [Store.cmpCheckedGo]
      by_cases hnil : buffer = []
      · rw [if_pos hnil]
        cases fuel' with
        | zero => rfl
        | succ fuel' =>
            rw [Store.cmpGo, if_pos hnil]
            rfl
      · have hpos : 0 < buffer.length := List.length_pos_iff.mpr hnil
        have hsub : i ≤ hint := by omega
        simp only [if_neg hnil, overflowing_sub hsub, ok_bind]
        cases fuel' with
        | zero => omega
        | succ fuel' =>
            have htake : buffer.take (min buffer.length 8) = buffer.take 8 := by
              rw [min_comm, ← List.take_take, List.take_length]
            have hdrop : buffer.drop (min buffer.length 8) = buffer.drop 8 := by
              obtain hle | hlt := Nat.le_total buffer.length 8
              · rw [min_eq_left hle, List.drop_length, List.drop_eq_nil_of_le hle]
              · rw [min_eq_right hlt]
            rw [Store.cmpGo, if_neg hnil]
            cases hread : store.read block (off + i) (min buffer.length 8) with
            | none => rfl
            | some dat =>
                simp only [htake, hdrop]
                cases cmpBytes dat (buffer.take 8) with
                | lt => rfl
                | gt => rfl
                | eq =>
                    have hlength : (buffer.drop 8).length = buffer.length - 8 := List.length_drop
                    have hstep : store.cmpCheckedGo hint block off fuel (i + min buffer.length 8)
                        (buffer.drop 8) = .ok (store.cmpGo block fuel'
                          (off + (i + min buffer.length 8)) (buffer.drop 8)) := by
                      apply ih
                      · omega
                      · omega
                      · omega
                    refine hstep.trans ?_
                    obtain hle | hlt := Nat.le_total buffer.length 8
                    · rw [List.drop_eq_nil_of_le hle]
                      cases fuel' <;> rfl
                    · rw [min_eq_right hlt, Nat.add_assoc]

/-! ## The callbacks -/

theorem findMatchChecked_eq (name : List Octet) (store : Store) (tag block : Word) (off : ℕ) :
    findMatchChecked name store tag block off = .ok (findMatch name store tag block off) := by
  have hcmp : store.cmpChecked (min name.length (tagOf tag).size) block off
      (name.take (min name.length (tagOf tag).size)) =
        .ok (store.cmp block off (name.take (min name.length (tagOf tag).size))) := by
    apply Store.cmpCheckedGo_eq
    · rw [List.length_take, Nat.zero_add]
      exact min_le_left _ _
    · exact Nat.lt_succ_self _
    · exact le_refl _
  simp only [findMatchChecked, findMatch, hcmp]
  cases store.cmp block off (name.take (min name.length (tagOf tag).size)) with
  | none => rfl
  | some order => cases order <;> rfl

/-- No valid tag matches the pattern of `lfs_dir_fetch`. -/
theorem Query.fetch_selects (hvalid : isvalid tag = true) : Query.fetch.selects tag = false := by
  apply beq_eq_false_iff_ne.mpr
  intro hand
  have htag : BitVec.allOnes 32 &&& tag = BitVec.allOnes 32 &&& BitVec.allOnes 32 := hand
  rw [BitVec.allOnes_and, BitVec.allOnes_and] at htag
  rw [htag] at hvalid
  exact absurd hvalid (by decide)

theorem Store.answerChecked_eq (hvalid : isvalid tag = true) :
    store.answerChecked caller block (off + 4) tag temp =
      .ok (store.answer caller.query block off tag temp) := by
  rw [Store.answerChecked, Store.answer]
  cases hselects : caller.query.selects tag with
  | false => rfl
  | true =>
      rw [if_pos rfl, if_pos rfl]
      have hcb : caller.cb store tag block (off + 4) =
          .ok (caller.query.cb store tag block (off + 4)) := by
        cases caller with
        | fetch => exact absurd hselects (by simp [Caller.query, Query.fetch_selects hvalid])
        | find name => exact findMatchChecked_eq name store tag block (off + 4)
        | mount => exact findMatchChecked_eq _ store tag block (off + 4)
        | parent pair => rfl
      rw [hcb]
      cases caller.query.cb store tag block (off + 4) <;> rfl

/-! ## The tags that edit a directory -/

theorem splice_range (tag : Tag) : -2 ^ 7 ≤ tag.splice ∧ tag.splice < 2 ^ 7 := by
  have hchunk : tag.chunk < 2 ^ 8 := Nat.and_lt_two_pow tag.type (by norm_num)
  rw [Tag.splice]
  split <;> omega

theorem toInt_mkdiff {diff : ℤ} (hlow : -2 ^ 7 ≤ diff) (hhigh : diff < 2 ^ 7) :
    (mkdiff diff).toInt = 2 ^ 10 * diff := by
  have hshift : mkdiff diff = BitVec.ofInt 32 (diff * 2 ^ 10) := by
    rw [mkdiff, BitVec.shiftLeft_eq_mul_twoPow, BitVec.ofInt_mul]
    rfl
  rw [hshift, BitVec.toInt_ofInt, Int.bmod_eq_of_le (by omega) (by omega), mul_comm]

/-- A sum of two `i32`s. -/
theorem addI32_eq {a b : Word} (hlow : -2 ^ 31 ≤ a.toInt + b.toInt)
    (hhigh : a.toInt + b.toInt < 2 ^ 31) : addI32 a b = .ok (a + b) := by
  apply if_neg
  rw [BitVec.saddOverflow]
  simp only [Bool.or_eq_true, decide_eq_true_eq]
  omega

theorem addI32_overflows {a b : Word}
    (hout : ¬(-2 ^ 31 ≤ a.toInt + b.toInt ∧ a.toInt + b.toInt < 2 ^ 31)) :
    addI32 a b = .error (.panic .overflow) := by
  apply if_pos
  rw [BitVec.saddOverflow]
  simp only [Bool.or_eq_true, decide_eq_true_eq]
  omega

theorem Temp.nameChecked_eq (temp : Temp) (tag : Word) :
    temp.nameChecked (tagOf tag) = .ok (temp.name (tagOf tag)) := by
  have hid : (tagOf tag).id < 2 ^ 10 := Nat.mod_lt _ (by norm_num)
  have hfits : (tagOf tag).id + 1 < 2 ^ 16 := by omega
  simp only [Temp.nameChecked, Temp.name, if_pos hfits]
  split
  · rfl
  · rfl

theorem Temp.spliceChecked_eq
    (hfits : temp.Shifts tag → -2 ^ 31 ≤ temp.besttag.toInt + 2 ^ 10 * (tagOf tag).splice ∧
      temp.besttag.toInt + 2 ^ 10 * (tagOf tag).splice < 2 ^ 31) :
    temp.spliceChecked tag = .ok (temp.splice tag) := by
  have hdiff := toInt_mkdiff (splice_range (tagOf tag)).1 (splice_range (tagOf tag)).2
  simp only [Temp.spliceChecked, Temp.splice]
  split
  · rfl
  · rename_i hdelete
    split
    · rename_i hbehind
      obtain ⟨hlow, hhigh⟩ := hfits ⟨hdelete, hbehind⟩
      rw [addI32_eq (by rw [hdiff]; exact hlow) (by rw [hdiff]; exact hhigh)]
      rfl
    · rfl

theorem Temp.spliceChecked_overflows (hshifts : temp.Shifts tag)
    (hout : ¬(-2 ^ 31 ≤ temp.besttag.toInt + 2 ^ 10 * (tagOf tag).splice ∧
      temp.besttag.toInt + 2 ^ 10 * (tagOf tag).splice < 2 ^ 31)) :
    temp.spliceChecked tag = .error (.panic .overflow) := by
  have hdiff := toInt_mkdiff (splice_range (tagOf tag)).1 (splice_range (tagOf tag)).2
  rw [← hdiff] at hout
  simp only [Temp.spliceChecked, if_neg hshifts.1, if_pos hshifts.2, addI32_overflows hout]
  rfl

theorem Store.noteChecked_eq {fcrc : Option LfsFcrc}
    (hfits : (tagOf tag).type1 = tySplice → temp.Shifts tag →
      -2 ^ 31 ≤ temp.besttag.toInt + 2 ^ 10 * (tagOf tag).splice ∧
        temp.besttag.toInt + 2 ^ 10 * (tagOf tag).splice < 2 ^ 31) :
    store.noteChecked block (off + 4) tag temp fcrc = .ok (store.note block off tag temp fcrc) := by
  rw [Store.noteChecked, Store.note]
  split
  · rw [Temp.nameChecked_eq]
    rfl
  · split
    · rename_i hsplice
      rw [Temp.spliceChecked_eq (hfits hsplice)]
      rfl
    · split
      · cases store.read block (off + 4) 8 <;> rfl
      · split
        · cases store.read block (off + 4) 8 <;> rfl
        · rfl

theorem Store.noteChecked_overflows {fcrc : Option LfsFcrc} {data : ℕ}
    (hsplice : (tagOf tag).type1 = tySplice) (hshifts : temp.Shifts tag)
    (hout : ¬(-2 ^ 31 ≤ temp.besttag.toInt + 2 ^ 10 * (tagOf tag).splice ∧
      temp.besttag.toInt + 2 ^ 10 * (tagOf tag).splice < 2 ^ 31)) :
    store.noteChecked block data tag temp fcrc = .error (.panic .overflow) := by
  have hname : (tagOf tag).type1 ≠ tyName := by
    rw [hsplice]
    decide
  rw [Store.noteChecked, if_neg hname, if_pos hsplice, Temp.spliceChecked_overflows hshifts hout]
  rfl

/-! ## One turn -/

/-- The place of a pass between two turns: the tag before it ends inside a block of
the device. -/
structure Store.Placed (store : Store) (pass : Pass) : Prop where
  inside : pass.off + (tagOf pass.ptag).dsize ≤ store.cfg.blockSize
  readable : store.Readable pass.dir.pair.1

theorem Store.placed_firstPass (hcfg : store.cfg.Accepted) (hreadable : store.Readable pair.1) :
    store.Placed (store.firstPass pair) := by
  have hsize := hcfg.block_ge
  have hdsize : (tagOf nullWord).dsize = 4 := by decide
  refine ⟨?_, hreadable⟩
  change 0 + (tagOf nullWord).dsize ≤ store.cfg.blockSize
  omega

theorem Store.Placed.turn {query : Query} (hplaced : store.Placed pass)
    (hturn : store.turn query pass = .next pass') :
    store.Placed pass' ∧ pass.off < pass'.off := by
  have hdsize := four_le_dsize (tagOf pass.ptag)
  have hmore : pass.off < pass.off + (tagOf pass.ptag).dsize := by omega
  obtain ⟨tag, crc, hend, rfl | ⟨temp, fcrc, temp', _, _, rfl⟩⟩ := Store.turn_next hturn
  · refine ⟨⟨?_, hplaced.readable⟩, hmore⟩
    simpa only [Pass.publish, tagOf_perturb] using hend
  · exact ⟨⟨hend, hplaced.readable⟩, hmore⟩

theorem Store.tagAt_eq {tagBuf : List Octet}
    (hread : store.read pass.dir.pair.1 (pass.off + (tagOf pass.ptag).dsize) 4 = some tagBuf) :
    store.tagAt pass = some (ofBeBytes tagBuf ^^^ pass.ptag) := by
  rw [Store.tagAt, hread]
  rfl

/-- A turn that fits does what the scan does. -/
theorem Store.turnChecked_eq (hcfg : store.cfg.Accepted) (hplaced : store.Placed pass)
    (hfits : store.Fits pass) :
    store.turnChecked caller pass = .ok (store.turn caller.query pass) := by
  have hword := hcfg.block_word
  have hoff : pass.off + (tagOf pass.ptag).dsize < 2 ^ 32 := Nat.lt_of_le_of_lt hplaced.inside hword
  rw [Store.turnChecked, Store.turn, overflowing_add hoff, ok_bind]
  cases hread : store.read pass.dir.pair.1 (pass.off + (tagOf pass.ptag).dsize) 4 with
  | none => rfl
  | some tagBuf =>
      have hin := Store.read_end hread
      by_cases hvalid : isvalid (ofBeBytes tagBuf ^^^ pass.ptag) = true
      · have hturn := hfits _ (Store.tagAt_eq hread) hvalid
        simp only [hvalid, not_true_eq_false, if_false, overflowing_add hturn.end_lt, ok_bind]
        split
        · rfl
        · rename_i hinside
          have hdata : pass.off + (tagOf pass.ptag).dsize + 4 < 2 ^ 32 := by omega
          rw [overflowing_add hdata, ok_bind]
          split
          · rw [Store.crcTurnChecked]
            cases store.read pass.dir.pair.1 (pass.off + (tagOf pass.ptag).dsize + 4) 4 with
            | none => rfl
            | some dcrc =>
                simp only
                split
                · rfl
                · rfl
          · have hnote := hturn.sum_fits (Nat.le_of_not_lt hinside)
            simp only [Store.entryTurnChecked, Store.crcChecked_eq, ok_bind]
            generalize ofBeBytes tagBuf ^^^ pass.ptag = tag at hvalid hnote
            generalize pass.off + (tagOf pass.ptag).dsize = off
            cases store.crc pass.dir.pair.1 (off + 4) ((tagOf tag).dsize - 4)
                (lfsCrc pass.crc tagBuf) with
            | mk crc read =>
                cases read with
                | false => rfl
                | true =>
                    simp only [Store.noteChecked_eq hnote, ok_bind]
                    cases store.note pass.dir.pair.1 off tag pass.temp pass.fcrc with
                    | none => rfl
                    | some noted =>
                        simp only [Store.answerChecked_eq hvalid, ok_bind]
                        cases store.answer caller.query pass.dir.pair.1 off tag noted.1 <;> rfl
      · simp only [hvalid]
        rfl

/-- A turn that does not fit overflows. -/
theorem Store.turnChecked_overflows (hcfg : store.cfg.Accepted) (hplaced : store.Placed pass)
    (hunfit : ¬store.Fits pass) :
    store.turnChecked caller pass = .error (.panic .overflow) := by
  have hword := hcfg.block_word
  have hoff : pass.off + (tagOf pass.ptag).dsize < 2 ^ 32 := Nat.lt_of_le_of_lt hplaced.inside hword
  rw [Store.turnChecked, overflowing_add hoff, ok_bind]
  cases hread : store.read pass.dir.pair.1 (pass.off + (tagOf pass.ptag).dsize) 4 with
  | none =>
      apply absurd _ hunfit
      intro tag htag
      rw [Store.tagAt, hread] at htag
      cases htag
  | some tagBuf =>
      have htagAt := Store.tagAt_eq hread
      have hin := Store.read_end hread
      have hturn : isvalid (ofBeBytes tagBuf ^^^ pass.ptag) = true ∧
          ¬store.TurnFits pass (ofBeBytes tagBuf ^^^ pass.ptag) := by
        by_contra hnot
        apply hunfit
        intro tag htag hvalid
        obtain rfl := Option.some.inj (htagAt.symm.trans htag)
        by_contra hturn
        exact hnot ⟨hvalid, hturn⟩
      obtain ⟨hvalid, hturn⟩ := hturn
      simp only [hvalid, not_true_eq_false, if_false]
      generalize ofBeBytes tagBuf ^^^ pass.ptag = tag at hvalid hturn
      by_cases hend : pass.off + (tagOf pass.ptag).dsize + (tagOf tag).dsize < 2 ^ 32
      · have hsum : ¬(pass.off + (tagOf pass.ptag).dsize + (tagOf tag).dsize ≤
            store.cfg.blockSize → (tagOf tag).type1 = tySplice → pass.temp.Shifts tag → _) :=
          fun hfits => hturn ⟨hend, hfits⟩
        obtain ⟨hinside, hsum⟩ := Classical.not_imp.mp hsum
        obtain ⟨hsplice, hsum⟩ := Classical.not_imp.mp hsum
        obtain ⟨hshifts, hout⟩ := Classical.not_imp.mp hsum
        have hdata : pass.off + (tagOf pass.ptag).dsize + 4 < 2 ^ 32 := by omega
        have hentry : (tagOf tag).type2 ≠ tyCcrc := fun hcrc => type1_of_ccrc hcrc hsplice
        have hdsize := four_le_dsize (tagOf tag)
        rw [overflowing_add hend, ok_bind, if_neg (Nat.not_lt.mpr hinside), overflowing_add hdata,
          ok_bind, if_neg hentry, Store.entryTurnChecked, Store.crcChecked_eq,
          Store.crc_eq hplaced.readable (by omega)]
        simp only [ok_bind, Store.noteChecked_overflows hsplice hshifts hout]
        rfl
      · rw [overflowing_add_ge (Nat.le_of_not_lt hend)]
        rfl

/-! ## The scan -/

theorem Store.step_next {query : Query} (hturn : store.turn query pass = .next pass') :
    store.step query pass = .inl pass' := by
  rw [Store.step, hturn]

theorem Store.step_eq_inl {query : Query} (hstep : store.step query pass = .inl pass') :
    store.turn query pass = .next pass' := by
  rw [Store.step] at hstep
  cases hturn : store.turn query pass with
  | next next =>
      rw [hturn] at hstep
      rw [Sum.inl.inj hstep]
  | stop maybeerased =>
      rw [hturn] at hstep
      cases hstep

/-- A scan whose turns all fit comes to its end and does what the scan does. -/
theorem Store.scanChecked_eq (hcfg : store.cfg.Accepted) (hplaced : store.Placed pass)
    (hfits : ∀ reached, Machines.Reaches (store.step caller.query) pass reached →
      store.Fits reached)
    (hfuel : store.cfg.blockSize < pass.off + fuel) :
    store.scanChecked caller fuel pass = .ok (store.scan caller.query fuel pass) := by
  induction fuel generalizing pass with
  | zero =>
      have hinside := hplaced.inside
      omega
  | succ fuel ih =>
      rw [Store.scanChecked, Store.turnChecked_eq hcfg hplaced (hfits pass .start), ok_bind,
        Store.scan]
      cases hturn : store.turn caller.query pass with
      | stop maybeerased => rfl
      | next pass' =>
          obtain ⟨hplaced', hmore⟩ := hplaced.turn hturn
          apply ih hplaced'
          · intro reached hreached
            exact hfits reached (hreached.head (Store.step_next hturn))
          · omega

/-- A scan that gets to a turn that does not fit overflows there. -/
theorem Store.scanChecked_overflows {reached : Pass} (hcfg : store.cfg.Accepted)
    (hplaced : store.Placed pass)
    (hreached : Machines.Reaches (store.step caller.query) pass reached)
    (hunfit : ¬store.Fits reached) (hfuel : store.cfg.blockSize < pass.off + fuel) :
    store.scanChecked caller fuel pass = .error (.panic .overflow) := by
  induction fuel generalizing pass with
  | zero =>
      have hinside := hplaced.inside
      omega
  | succ fuel ih =>
      rw [Store.scanChecked]
      by_cases hfits : store.Fits pass
      · rw [Store.turnChecked_eq hcfg hplaced hfits, ok_bind]
        obtain rfl | ⟨pass', hstep, hrest⟩ := hreached.cases_head
        · exact absurd hfits hunfit
        · have hturn := Store.step_eq_inl hstep
          obtain ⟨hplaced', hmore⟩ := hplaced.turn hturn
          rw [hturn]
          exact ih hplaced' hrest (by omega)
      · rw [Store.turnChecked_overflows hcfg hplaced hfits]
        rfl

theorem Store.scanFrontChecked_eq (hcfg : store.cfg.Accepted) (hreadable : store.Readable pair.1)
    (hfits : store.ScanFits caller.query pair) :
    store.scanFrontChecked caller pair = .ok (store.scanFront caller.query pair) := by
  apply Store.scanChecked_eq hcfg (Store.placed_firstPass hcfg hreadable) hfits
  exact Nat.lt_of_lt_of_le (Nat.lt_succ_self _) (Nat.le_add_left _ _)

theorem Store.scanFrontChecked_overflows (hcfg : store.cfg.Accepted)
    (hreadable : store.Readable pair.1) (hunfit : ¬store.ScanFits caller.query pair) :
    store.scanFrontChecked caller pair = .error (.panic .overflow) := by
  obtain ⟨reached, hunfit⟩ := Classical.not_forall.mp hunfit
  obtain ⟨hreached, hunfit⟩ := Classical.not_imp.mp hunfit
  apply Store.scanChecked_overflows hcfg (Store.placed_firstPass hcfg hreadable) hreached hunfit
  exact Nat.lt_of_lt_of_le (Nat.lt_succ_self _) (Nat.le_add_left _ _)

/-! ## The end of a fetch -/

theorem Store.checkErasedChecked_eq (store : Store) (pass : Pass) (maybeerased : Bool) :
    store.checkErasedChecked pass maybeerased = .ok (store.checkErased pass maybeerased) := by
  rw [Store.checkErasedChecked, Store.checkErased]
  cases pass.fcrc with
  | none => rfl
  | some fcrc =>
      simp only [Store.crcChecked_eq, ok_bind]
      cases maybeerased && pass.dir.off % store.cfg.progSize == 0 <;> rfl

/-- An id that is not the first one can be lowered. -/
theorem sub_mktag_one {besttag : Word} {id : ℕ} (hid : id < (tagOf besttag).id) :
    subI32 true besttag (mktag 0 1 0) = .ok (besttag - mktag 0 1 0) := by
  have hone : (mktag 0 1 0).toInt = 2 ^ 10 := by decide
  have hfield : id < besttag.toNat / 2 ^ 10 % 2 ^ 10 := hid
  apply if_neg
  rw [Bool.true_and, BitVec.ssubOverflow, hone, BitVec.toInt_eq_toNat_cond]
  have hlt := besttag.isLt
  simp only [Bool.or_eq_true, decide_eq_true_eq]
  split <;> omega

theorem Store.syntheticMoveChecked_eq (store : Store) (pair : WordPair) (besttag : Word) :
    store.syntheticMoveChecked pair besttag = .ok (store.syntheticMove pair besttag) := by
  rw [Store.syntheticMoveChecked, Store.syntheticMove]
  split
  · split
    · rfl
    · split
      · rename_i hless
        exact sub_mktag_one hless.2
      · rfl
  · rfl

theorem Store.concludeChecked_eq (store : Store) (pass : Pass) (maybeerased : Bool) :
    store.concludeChecked pass maybeerased = .ok (store.conclude pass maybeerased) := by
  simp only [Store.concludeChecked, Store.checkErasedChecked_eq, ok_bind,
    Store.syntheticMoveChecked_eq]
  rfl

/-! ## Fetches -/

theorem lfsDirFetchmatchChecked_ordered (hrange : store.InRange pair)
    (hcfg : store.cfg.Accepted) :
    lfsDirFetchmatchChecked store caller pair = (do
      let (pass, maybeerased) ← store.scanFrontChecked caller (store.ordered pair)
      if pass.dir.off ≠ 0 then do
        let fetched ← store.concludeChecked pass maybeerased
        pure (some fetched)
      else do
        let (pass, maybeerased) ← store.scanFrontChecked caller (store.ordered pair).swap
        if pass.dir.off ≠ 0 then do
          let fetched ← store.concludeChecked pass maybeerased
          pure (some fetched)
        else
          pure none) := by
  have hsize : 4 ≤ store.cfg.blockSize := Nat.le_trans (by norm_num) hcfg.block_ge
  rw [lfsDirFetchmatchChecked, if_neg hrange.not_outside]
  simp only [Store.newer_ordered hrange hsize]

theorem lfsDirFetchmatchChecked_outside (hrange : ¬store.InRange pair) :
    lfsDirFetchmatchChecked store caller pair = .ok none := by
  apply if_pos
  unfold Store.InRange Store.Readable at hrange
  omega

/-- A calm fetch does what the fetch does. -/
theorem Store.Calm.fetchmatch (hcfg : store.cfg.Accepted) (hrange : store.InRange pair)
    (hcalm : store.Calm caller.query pair) :
    lfsDirFetchmatchChecked store caller pair = .ok (store.fetchmatch caller.query pair) := by
  have hsize : 4 ≤ store.cfg.blockSize := Nat.le_trans (by norm_num) hcfg.block_ge
  have hordered := hrange.ordered
  rw [lfsDirFetchmatchChecked_ordered hrange hcfg, Store.fetchmatch_ordered hrange hsize,
    Store.scanFrontChecked_eq hcfg hordered.1 (hcalm.first hrange), ok_bind]
  simp only [Store.concludeChecked_eq, ok_bind]
  split
  · rfl
  · rename_i hblank
    have hsecond := hcalm.second hrange (not_not.mp hblank)
    have hback : store.Readable (store.ordered pair).swap.1 := hordered.2
    rw [Store.scanFrontChecked_eq hcfg hback hsecond, ok_bind]
    split
    · rfl
    · rfl

/-- A fetch is safe exactly where every turn of its scans fits. -/
theorem lfsDirFetchmatch_safe_iff (hcfg : store.cfg.Accepted) :
    store.FetchesSafely caller pair ↔ store.Calm caller.query pair := by
  by_cases hrange : store.InRange pair
  · have hordered := hrange.ordered
    constructor
    · intro hsafe
      obtain ⟨result, hrun, _⟩ := hsafe
      rw [lfsDirFetchmatchChecked_ordered hrange hcfg] at hrun
      have hfirst : store.ScanFits caller.query (store.ordered pair) := by
        by_contra hunfit
        rw [Store.scanFrontChecked_overflows hcfg hordered.1 hunfit] at hrun
        cases hrun
      refine ⟨fun _ => hfirst, fun _ hblank => ?_⟩
      by_contra hunfit
      rw [Store.scanFrontChecked_eq hcfg hordered.1 hfirst, ok_bind] at hrun
      simp only [if_neg (not_not.mpr hblank)] at hrun
      rw [Store.scanFrontChecked_overflows hcfg hordered.2 hunfit] at hrun
      cases hrun
    · intro hcalm
      refine ⟨_, hcalm.fetchmatch hcfg hrange, fun fetched hfetch => ?_⟩
      have hbounded := Store.fetchmatch_bounded hfetch
      exact ⟨hbounded.1, hbounded.2.1⟩
  · apply iff_of_true
    · exact ⟨none, lfsDirFetchmatchChecked_outside hrange, fun _ hfetched => nomatch hfetched⟩
    · exact ⟨fun hin => absurd hin hrange, fun hin => absurd hin hrange⟩

/-- What an image needs for its lookups to be safe: an entry is looked up there. -/
theorem fileImage_calm : (blockStore fileImage).Calm (Query.find [0x61]) (0, 1) := by
  have hrun : (lfsDirFetchmatchChecked (blockStore fileImage) (.find [0x61]) (0, 1)).toOption =
      some ((blockStore fileImage).fetchmatch (Query.find [0x61]) (0, 1)) := by decide +kernel
  have hsafe : (blockStore fileImage).FetchesSafely (.find [0x61]) (0, 1) := by
    cases hresult : lfsDirFetchmatchChecked (blockStore fileImage) (.find [0x61]) (0, 1) with
    | error failure =>
        rw [hresult] at hrun
        cases hrun
    | ok result =>
        rw [hresult] at hrun
        refine ⟨result, hresult, fun fetched hfetched => ?_⟩
        have hfetch := (Option.some.inj hrun).symm.trans hfetched
        have hbounded := Store.fetchmatch_bounded hfetch
        exact ⟨hbounded.1, hbounded.2.1⟩
  exact (lfsDirFetchmatch_safe_iff smallConfig_accepted).mp hsafe

/-- Revision 1 and one commit: a name of the type 0 that comes behind `a`, and a removal
of the entry with a size. -/
def sizedDelete : List Octet :=
  [0x01, 0x00, 0x00, 0x00, 0xff, 0xff, 0xff, 0xfe, 0x62, 0x4f, 0xf0, 0x00, 0x00, 0x20, 0x1f, 0xff,
    0xfc, 0x05, 0x64, 0xd5, 0x6e, 0x0c]

/-- A lookup overflows. -/
theorem sizedDelete_overflows :
    ¬∀ (store : Store) (caller : Caller) (pair : WordPair), store.cfg.Accepted →
      store.FetchesSafely caller pair := by
  intro hsafe
  obtain ⟨result, hrun, _⟩ :=
    hsafe (blockStore sizedDelete) (.find [0x61]) (0, 1) smallConfig_accepted
  have hpanics : (lfsDirFetchmatchChecked (blockStore sizedDelete) (.find [0x61]) (0, 1)).toOption =
      none := by decide +kernel
  rw [hrun] at hpanics
  cases hpanics

end Littlefs.Disk
