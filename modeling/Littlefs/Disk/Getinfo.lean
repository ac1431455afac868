import Littlefs.Disk.Replaying
import Littlefs.Disk.ScanBounds
import Littlefs.Init

/-!
# The information about an entry

`lfs_dir_getinfo` looks an entry's name tag up and converts its type to an
`LfsType`.  The lookup masks the lower bits of the type, so any type below `0x080`
can be stored there.  `checks` is set for a build with overflow checks, in which
the walk panics when its subtraction overflows.
-/

namespace Littlefs.Disk

open Words

/-! ## The walk of a build with overflow checks -/

/-- `a - b` of two `i32`s. -/
def subI32 (checks : Bool) (a b : Word) : Except Fault Word :=
  if checks && BitVec.ssubOverflow a b then .error (.panic .overflow) else .ok (a - b)

/-- The part of a turn that counts a splice in front of the entry asked for. -/
def spliceDiff (checks : Bool) (gmask gtag tag gdiff : Word) : Except Fault Word :=
  if (tagOf gmask).id ≠ 0 ∧ (tagOf tag).type1 = tySplice then do
    let target ← subI32 checks gtag gdiff
    if (tagOf tag).id ≤ (tagOf target).id then
      if tag = mktag tyCreate 0 0 ||| (mktag 0 0x3ff 0 &&& target) then
        throw (.error .noEntry)
      else
        pure (gdiff + mkdiff (tagOf tag).splice)
    else
      pure gdiff
  else
    pure gdiff

/-- The loop of `lfs_dir_getslice`. -/
def Store.getsliceCheckedGo (store : Store) (checks : Bool) (block gmask gtag : Word)
    (goff size : ℕ) : ℕ → ℕ → Word → Word → Except Fault (Word × List Octet)
  | 0, _, _, _ => .error (.error .noEntry)
  | fuel + 1, off, tag, gdiff =>
      if 4 + (tagOf tag).dsize ≤ off then
        let off := off - (tagOf tag).dsize
        match store.read block off 4 with
        | none => .error (.error .corrupt)
        | some buffer => do
            let ntag := (store.order.be (store.order.ofBytes buffer) ^^^ tag) &&& 0x7fffffff
            let gdiff ← spliceDiff checks gmask gtag tag gdiff
            let target ← subI32 checks gtag gdiff
            if gmask &&& tag = gmask &&& target then
              if (tagOf tag).isdelete then
                throw (.error .noEntry)
              else
                let diff := min (tagOf tag).size size
                match store.read block (off + 4 + goff) diff with
                | none => throw (.error .corrupt)
                | some buffer => pure (tag + gdiff, buffer ++ List.replicate (size - diff) 0)
            else
              Store.getsliceCheckedGo store checks block gmask gtag goff size fuel off ntag gdiff
      else
        .error (.error .noEntry)

/-- `gdiff` where the walk begins: the source of a pending move is taken out. -/
def Store.firstDiff (store : Store) (dir : LfsMdir) (gmask gtag : Word) : Word :=
  if (store.gdisk.hasmovehere dir.pair = true ∧ (tagOf gmask).id ≠ 0) ∧
      (tagOf store.gdisk.tag).id < (tagOf gtag).id then
    0 - mktag 0 1 0
  else 0

/-- The entry asked for is the source of a pending move. -/
def Store.movedAway (store : Store) (dir : LfsMdir) (gmask gtag : Word) : Prop :=
  (store.gdisk.hasmovehere dir.pair = true ∧ (tagOf gmask).id ≠ 0) ∧
    (tagOf store.gdisk.tag).id = (tagOf gtag).id

instance (store : Store) (dir : LfsMdir) (gmask gtag : Word) :
    Decidable (store.movedAway dir gmask gtag) :=
  inferInstanceAs (Decidable (_ ∧ _))

/-- `lfs_dir_get` with a buffer of `size` bytes. -/
def lfsDirGetChecked (checks : Bool) (store : Store) (dir : LfsMdir) (gmask gtag : Word)
    (size : ℕ) : Except Fault (Word × List Octet) :=
  if store.movedAway dir gmask gtag then
    .error (.error .noEntry)
  else
    store.getsliceCheckedGo checks dir.pair.1 gmask gtag 0 size (dir.off + 1) dir.off dir.etag
      (store.firstDiff dir gmask gtag)

/-! ## The information -/

/-- `LfsType`. -/
inductive LfsType
  | none
  | reg
  | dir
  deriving DecidableEq, Repr

/-- `LfsType::try_from_primitive`. -/
def LfsType.tryFromPrimitive : ℕ → Option LfsType
  | 0 => some none
  | 1 => some reg
  | 2 => some dir
  | _ => Option.none

structure LfsInfo where
  type : LfsType := .none
  size : ℕ := 0
  name : List Octet := List.replicate 256 0
  deriving DecidableEq, Repr

/-- The pattern of the name lookup. -/
def nameTag (nameMax id : ℕ) : Word := mktag tyName id (nameMax + 1)

/-- The pattern of the struct lookup. -/
def structTag (id : ℕ) : Word := mktag tyStruct id 8

/-- `lfs_dir_getinfo`; `info` is also left changed where the call fails. -/
def lfsDirGetinfo (checks : Bool) (store : Store) (nameMax : ℕ) (dir : LfsMdir) (id : ℕ)
    (info : LfsInfo) : Except Fault Unit × LfsInfo :=
  if id = 0x3ff then
    (.ok (), { info with type := .dir, name := [0x2f, 0] ++ info.name.drop 2 })
  else
    match lfsDirGetChecked checks store dir (mktag 0x780 0x3ff 0) (nameTag nameMax id) 256 with
    | .error e => (.error e, info)
    | .ok (tag, name) =>
        let info := { info with name := name }
        match LfsType.tryFromPrimitive ((tagOf tag).type3 % 256) with
        | none => (.error (.panic .unwrapNone), info)
        | some type =>
            let info := { info with type := type }
            match lfsDirGetChecked checks store dir (mktag 0x700 0x3ff 0) (structTag id) 8 with
            | .error e => (.error e, info)
            | .ok (tag, ctz) =>
                if (tagOf tag).type3 = tyCtzstruct then
                  let size := store.order.le (store.order.ofBytes (ctz.drop 4))
                  (.ok (), { info with size := size.toNat })
                else if (tagOf tag).type3 = tyInlinestruct then
                  (.ok (), { info with size := (tagOf tag).size })
                else
                  (.ok (), info)

/-- `lfs_stat_` from the answer of `lfs_dir_find` on: the directory, the tag and the
path that is left. -/
def lfsStat (checks : Bool) (store : Store) (nameMax : ℕ)
    (found : Except Fault (LfsMdir × Word × List Octet)) (info : LfsInfo) :
    Except Fault Unit × LfsInfo :=
  match found with
  | .error e => (.error e, info)
  | .ok (cwd, tag, path) =>
      if 0x2f ∈ path ∧ (tagOf tag).type3 ≠ tyDir then
        (.error (.error .notDir), info)
      else
        lfsDirGetinfo checks store nameMax cwd (tagOf tag).id info

/-- `LfsDir`; its position and its head are left out. -/
structure LfsDir where
  m : LfsMdir
  id : ℕ
  deriving DecidableEq, Repr

/-- `dir.id += 1` of a `u16`. -/
def LfsDir.advance (checks : Bool) (dir : LfsDir) : Except Fault LfsDir :=
  if checks && decide (dir.id = 2 ^ 16 - 1) then .error (.panic .overflow)
  else .ok { dir with id := (dir.id + 1) % 2 ^ 16 }

/-- The head of a turn of `lfs_dir_read_`; `none` when the directory ends. -/
def Store.nextMdir (store : Store) (dir : LfsDir) : Except Fault (Option LfsDir) :=
  if dir.id = dir.m.count then
    if dir.m.split then
      match store.fetchmatch Query.fetch dir.m.tail with
      | none => .error (.error .corrupt)
      | some fetched => .ok (some { m := fetched.dir, id := 0 })
    else
      .ok none
  else
    .ok (some dir)

/-- The loop of `lfs_dir_read_`, which is entered behind `.` and `..`. -/
def lfsDirReadGo (checks : Bool) (store : Store) (nameMax : ℕ) :
    ℕ → LfsDir → LfsInfo → Except Fault (Bool × LfsDir × LfsInfo)
  | 0, _, _ => .error .outOfFuel
  | fuel + 1, dir, info => do
      match ← store.nextMdir dir with
      | none => pure (false, dir, info)
      | some dir =>
          match lfsDirGetinfo checks store nameMax dir.m dir.id info with
          | (.ok (), info) => do
              let dir ← dir.advance checks
              pure (true, dir, info)
          | (.error (.error .noEntry), info) => do
              let dir ← dir.advance checks
              lfsDirReadGo checks store nameMax fuel dir info
          | (.error e, _) => throw e

/-! ## What a log keeps for an entry -/

/-- `gdiff` behind a tag, and nothing at the creation of the entry. -/
def diffBehind (gmask gtag tag gdiff : Word) : Option Word :=
  if (tagOf gmask).id ≠ 0 ∧ (tagOf tag).type1 = tySplice ∧
      (tagOf tag).id ≤ (tagOf (gtag - gdiff)).id then
    if tag = mktag tyCreate 0 0 ||| (mktag 0 0x3ff 0 &&& (gtag - gdiff)) then none
    else some (gdiff + mkdiff (tagOf tag).splice)
  else some gdiff

/-- The latest of `tags`, which come with the last one first, that matches the
pattern after the splices behind it. -/
def latestTag (gmask gtag : Word) : List Word → Word → Option Word
  | [], _ => none
  | tag :: older, gdiff =>
      match diffBehind gmask gtag tag gdiff with
      | none => none
      | some gdiff =>
          if gmask &&& tag = gmask &&& (gtag - gdiff) then
            if (tagOf tag).isdelete then none else some (tag + gdiff)
          else latestTag gmask gtag older gdiff

/-- Up to that tag the splices leave `gtag - gdiff` inside an `i32`. -/
def splicesFit (gmask gtag : Word) : List Word → Word → Bool
  | [], _ => true
  | tag :: older, gdiff =>
      (!decide ((tagOf gmask).id ≠ 0 ∧ (tagOf tag).type1 = tySplice) ||
        !BitVec.ssubOverflow gtag gdiff) &&
      match diffBehind gmask gtag tag gdiff with
      | none => true
      | some gdiff =>
          !BitVec.ssubOverflow gtag gdiff &&
            (decide (gmask &&& tag = gmask &&& (gtag - gdiff)) ||
              splicesFit gmask gtag older gdiff)

/-- Tags without their validity bits. -/
def metTags (met : List TagData) : List Word := met.map fun entry => entry.1 &&& 0x7fffffff

/-- The tags of the complete commits of a block, the last one first. -/
def Store.tagsBack (store : Store) (block : Word) : List Word :=
  metTags (store.logTags block).reverse

/-- The latest tag that the log of a directory keeps for a pattern. -/
def Store.latest (store : Store) (dir : LfsMdir) (gmask gtag : Word) : Option Word :=
  if store.movedAway dir gmask gtag then none
  else latestTag gmask gtag (store.tagsBack dir.pair.1) (store.firstDiff dir gmask gtag)

def Store.fits (store : Store) (dir : LfsMdir) (gmask gtag : Word) : Bool :=
  decide (store.movedAway dir gmask gtag) ||
    splicesFit gmask gtag (store.tagsBack dir.pair.1) (store.firstDiff dir gmask gtag)

/-! ## The walk finds it -/

variable {store : Store} {pair : WordPair} {dir : LfsMdir} {block gmask gtag ptag tag ntag : Word}
  {off size fuel nameMax id : ℕ} {met : List TagData} {checks : Bool} {gdiff : Word}
  {info : LfsInfo}

/-- The answer of a walk, without the bytes. -/
def fieldOf (answer : Word × List Octet) : Tag := tagOf answer.1

/-- How a walk ends, by what the log keeps. -/
def walkEnd (checks : Bool) (fits : Bool) (latest : Option Word) : Except Fault Tag :=
  if checks && !fits then .error (.panic .overflow)
  else match latest with
    | none => .error (.error .noEntry)
    | some tag => .ok (tagOf tag)

theorem spliceDiff_eq (checks : Bool) (gmask gtag tag gdiff : Word) :
    spliceDiff checks gmask gtag tag gdiff =
      if checks && (decide ((tagOf gmask).id ≠ 0 ∧ (tagOf tag).type1 = tySplice) &&
          BitVec.ssubOverflow gtag gdiff) then
        .error (.panic .overflow)
      else
        match diffBehind gmask gtag tag gdiff with
        | none => .error (.error .noEntry)
        | some gdiff => .ok gdiff := by
  rw [spliceDiff, diffBehind]
  by_cases hasks : (tagOf gmask).id ≠ 0 ∧ (tagOf tag).type1 = tySplice
  · rw [if_pos hasks, subI32, decide_eq_true hasks, Bool.true_and]
    by_cases hover : (checks && BitVec.ssubOverflow gtag gdiff) = true
    · rw [if_pos hover, if_pos hover]
      rfl
    · rw [if_neg hover, if_neg hover]
      by_cases hle : (tagOf tag).id ≤ (tagOf (gtag - gdiff)).id
      · have hboth := And.intro hasks.1 (And.intro hasks.2 hle)
        simp only [if_pos hboth]
        change (if _ then _ else _) = _
        rw [if_pos hle]
        by_cases hcreate : tag = mktag tyCreate 0 0 ||| (mktag 0 0x3ff 0 &&& (gtag - gdiff))
        · rw [if_pos hcreate, if_pos hcreate]
          rfl
        · rw [if_neg hcreate, if_neg hcreate]
          rfl
      · have hboth : ¬((tagOf gmask).id ≠ 0 ∧ (tagOf tag).type1 = tySplice ∧
            (tagOf tag).id ≤ (tagOf (gtag - gdiff)).id) := fun hboth => hle hboth.2.2
        simp only [if_neg hboth]
        change (if _ then _ else _) = _
        rw [if_neg hle]
        rfl
  · have hboth : ¬((tagOf gmask).id ≠ 0 ∧ (tagOf tag).type1 = tySplice ∧
        (tagOf tag).id ≤ (tagOf (gtag - gdiff)).id) :=
      fun hboth => hasks (And.intro hboth.1 hboth.2.1)
    rw [if_neg hasks, decide_eq_false hasks, Bool.false_and, Bool.and_false]
    simp only [if_neg hboth]
    rfl

/-- A turn of the walk, at a tag that it meets. -/
theorem Store.getsliceCheckedGo_step (hblock : store.Readable block)
    (hrest : Trail (store.bytes block) off ptag met)
    (htag : tag &&& 0x7fffffff = tagAt (store.bytes block) off ptag &&& 0x7fffffff)
    (hoff : off + (tagOf tag).dsize ≤ store.cfg.blockSize)
    (hntag : ntag &&& 0x7fffffff = tag &&& 0x7fffffff) :
    (store.getsliceCheckedGo checks block gmask gtag 0 size (fuel + 1) (off + (tagOf tag).dsize)
        ntag gdiff).map fieldOf =
      if checks && (decide ((tagOf gmask).id ≠ 0 ∧ (tagOf ntag).type1 = tySplice) &&
          BitVec.ssubOverflow gtag gdiff) then
        .error (.panic .overflow)
      else
        match diffBehind gmask gtag ntag gdiff with
        | none => .error (.error .noEntry)
        | some gdiff =>
            if checks && BitVec.ssubOverflow gtag gdiff then
              .error (.panic .overflow)
            else if gmask &&& ntag = gmask &&& (gtag - gdiff) then
              if (tagOf ntag).isdelete then .error (.error .noEntry)
              else .ok (tagOf (ntag + gdiff))
            else
              (store.getsliceCheckedGo checks block gmask gtag 0 size fuel off
                (ptag &&& 0x7fffffff) gdiff).map fieldOf := by
  have hfour := hrest.four_le
  have hsame : tagOf ntag = tagOf tag := tagOf_low hntag
  have hstep : 4 + (tagOf tag).dsize ≤ off + (tagOf tag).dsize := Nat.add_le_add_right hfour _
  have hback : off + (tagOf tag).dsize - (tagOf tag).dsize = off := Nat.add_sub_cancel _ _
  obtain ⟨hread, hword⟩ := Store.read_word hblock hrest htag hoff hntag
  rw [Store.getsliceCheckedGo]
  simp only [hsame, if_pos hstep, hback, hread, be_ofBytes_read, hword, spliceDiff_eq]
  by_cases hover : (checks && (decide ((tagOf gmask).id ≠ 0 ∧ (tagOf tag).type1 = tySplice) &&
      BitVec.ssubOverflow gtag gdiff)) = true
  · rw [if_pos hover, if_pos hover]
    rfl
  · rw [if_neg hover, if_neg hover]
    cases hbehind : diffBehind gmask gtag ntag gdiff with
    | none => rfl
    | some gdiff =>
        change Except.map fieldOf ((subI32 checks gtag gdiff).bind _) = _
        rw [subI32]
        by_cases hover : (checks && BitVec.ssubOverflow gtag gdiff) = true
        · simp only [if_pos hover]
          rfl
        · simp only [if_neg hover, Except.bind]
          split
          · split
            · rfl
            · rename_i hdelete
              rw [(Store.read_data hblock hoff hdelete size).1]
              rfl
          · rfl

theorem tagOf_add_low {word word' : Word} (gdiff : Word)
    (hword : word &&& 0x7fffffff = word' &&& 0x7fffffff) :
    tagOf (word + gdiff) = tagOf (word' + gdiff) := by
  have hlow : word.toNat % 2 ^ 31 = word'.toNat % 2 ^ 31 := by
    rw [← toNat_clear, ← toNat_clear, hword]
  apply tagOf_congr
  rw [BitVec.toNat_add, BitVec.toNat_add]
  omega

/-- Without its validity bit a tag behaves the same, unless it is a splice. -/
theorem diffBehind_low {tag tag' : Word} (htag : tag &&& 0x7fffffff = tag' &&& 0x7fffffff)
    (hsplice : (tagOf tag).type1 = tySplice → tag = tag') :
    diffBehind gmask gtag tag gdiff = diffBehind gmask gtag tag' gdiff := by
  by_cases htype : (tagOf tag).type1 = tySplice
  · rw [hsplice htype]
  · have htype' : ¬(tagOf tag').type1 = tySplice := by rwa [← tagOf_low htag]
    have hnot : ∀ {tag : Word}, ¬(tagOf tag).type1 = tySplice →
        ¬((tagOf gmask).id ≠ 0 ∧ (tagOf tag).type1 = tySplice ∧
          (tagOf tag).id ≤ (tagOf (gtag - gdiff)).id) := fun hne hboth => hne hboth.2.1
    rw [diffBehind, diffBehind, if_neg (hnot htype), if_neg (hnot htype')]

/-- A walk finds the latest tag, unless a subtraction overflows on the way. -/
theorem Store.getsliceCheckedGo_eq (hblock : store.Readable block)
    (hmask : gmask &&& 0x7fffffff = gmask) (htrail : Trail (store.bytes block) off ptag met)
    (hoff : off ≤ store.cfg.blockSize) (hntag : ntag &&& 0x7fffffff = ptag &&& 0x7fffffff)
    (hsplice : (tagOf ntag).type1 = tySplice → ntag = ntag &&& 0x7fffffff) (hfuel : off < fuel) :
    (store.getsliceCheckedGo checks block gmask gtag 0 size fuel off ntag gdiff).map fieldOf =
      walkEnd checks (splicesFit gmask gtag (metTags met) gdiff)
        (latestTag gmask gtag (metTags met) gdiff) := by
  induction htrail generalizing fuel ntag gdiff with
  | first =>
      obtain ⟨fuel, rfl⟩ := Nat.exists_eq_add_of_lt (Nat.zero_lt_of_lt hfuel)
      have hdsize := four_le_dsize (tagOf ntag)
      have hstop : ¬4 + (tagOf ntag).dsize ≤ 4 := by omega
      have hend : walkEnd checks true none = .error (.error .noEntry) := by
        cases checks <;> rfl
      rw [Nat.zero_add, Store.getsliceCheckedGo, if_neg hstop]
      exact hend.symm
  | @tag off ptag met tag hrest htag ih =>
      obtain ⟨fuel, rfl⟩ := Nat.exists_eq_add_of_lt (Nat.zero_lt_of_lt hfuel)
      have hdsize := four_le_dsize (tagOf tag)
      have hclear : ∀ word : Word, word &&& 0x7fffffff &&& 0x7fffffff = word &&& 0x7fffffff := by
        intro word
        rw [BitVec.and_assoc, BitVec.and_self]
      have hlow : ntag &&& 0x7fffffff = (tag &&& 0x7fffffff) &&& 0x7fffffff := by
        rw [hclear, hntag]
      have hfields : tagOf ntag = tagOf (tag &&& 0x7fffffff) := tagOf_low hlow
      have hmatch : gmask &&& ntag = gmask &&& (tag &&& 0x7fffffff) := and_low hmask hlow
      have hbehind : ∀ gdiff, diffBehind gmask gtag ntag gdiff =
          diffBehind gmask gtag (tag &&& 0x7fffffff) gdiff := fun gdiff =>
        diffBehind_low hlow fun htype => (hsplice htype).trans hntag
      have hnext : ∀ gdiff,
          (store.getsliceCheckedGo checks block gmask gtag 0 size fuel off (ptag &&& 0x7fffffff)
            gdiff).map fieldOf =
          walkEnd checks (splicesFit gmask gtag (metTags met) gdiff)
            (latestTag gmask gtag (metTags met) gdiff) := fun gdiff =>
        ih (by omega) (hclear ptag) (fun _ => (hclear ptag).symm) (by omega)
      rw [Nat.zero_add, Store.getsliceCheckedGo_step hblock hrest htag hoff hntag, hfields, hbehind,
        metTags, List.map_cons, splicesFit, latestTag, ← Bool.not_and]
      generalize (decide ((tagOf gmask).id ≠ 0 ∧
        (tagOf (tag &&& 0x7fffffff)).type1 = tySplice) && BitVec.ssubOverflow gtag gdiff) = first
      cases hdiff : diffBehind gmask gtag (tag &&& 0x7fffffff) gdiff with
      | none => cases checks <;> cases first <;> rfl
      | some gdiff =>
          simp only [hmatch, hnext, tagOf_add_low gdiff hlow]
          generalize BitVec.ssubOverflow gtag gdiff = wraps
          by_cases hfound : gmask &&& (tag &&& 0x7fffffff) = gmask &&& (gtag - gdiff)
          · simp only [if_pos hfound, decide_eq_true hfound, Bool.true_or, Bool.and_true]
            cases (tagOf (tag &&& 0x7fffffff)).isdelete <;> cases checks <;> cases first <;>
              cases wraps <;> rfl
          · simp only [if_neg hfound, decide_eq_false hfound, Bool.false_or]
            cases checks <;> cases first <;> cases wraps <;> rfl

/-- The answer of a lookup in a directory that ends where its log ends. -/
theorem lfsDirGetChecked_eq (hsize : 4 ≤ store.cfg.blockSize) (hcurrent : Current store pair dir)
    (hmask : gmask &&& 0x7fffffff = gmask) :
    (lfsDirGetChecked checks store dir gmask gtag size).map fieldOf =
      walkEnd checks (store.fits dir gmask gtag) (store.latest dir gmask gtag) := by
  rw [lfsDirGetChecked, Store.fits, Store.latest]
  by_cases hmoved : store.movedAway dir gmask gtag
  · rw [if_pos hmoved, if_pos hmoved, decide_eq_true hmoved, Bool.true_or]
    cases checks <;> rfl
  · have hchain := store.log_chain dir.pair.1
    have htrail := hchain.trail Trail.first
    have hend := hchain.end_le hsize
    have htype : ¬(tagOf (endOf (store.log dir.pair.1)).ptag).type1 = tySplice :=
      type1_of_ccrc (hchain.end_ccrc hcurrent.log_ne)
    rw [if_neg hmoved, if_neg hmoved, decide_eq_false hmoved, Bool.false_or, hcurrent.off_eq,
      hcurrent.etag_eq]
    rw [List.append_nil] at htrail
    exact Store.getsliceCheckedGo_eq hcurrent.inRange.1 hmask htrail hend rfl
      (fun hsplice => absurd hsplice htype) (Nat.lt_succ_self _)

/-! ## Panics -/

def isPanic : Fault → Bool
  | .panic _ => true
  | _ => false

def panicked {α : Type} : Except Fault α → Bool
  | .error fault => isPanic fault
  | .ok _ => false

/-- The name tag that the log keeps for an entry has the type of a file, of a
directory or none.  With overflow checks no subtraction of the lookups overflows. -/
structure NamedSafely (checks : Bool) (store : Store) (nameMax : ℕ) (dir : LfsMdir) (id : ℕ) :
    Prop where
  name_fits : checks = true → store.fits dir (mktag 0x780 0x3ff 0) (nameTag nameMax id) = true
  type_le : ∀ tag, store.latest dir (mktag 0x780 0x3ff 0) (nameTag nameMax id) = some tag →
    (tagOf tag).type3 % 256 ≤ 2
  struct_fits : ∀ tag, store.latest dir (mktag 0x780 0x3ff 0) (nameTag nameMax id) = some tag →
    checks = true → store.fits dir (mktag 0x700 0x3ff 0) (structTag id) = true

theorem LfsType.tryFromPrimitive_isSome (type : ℕ) :
    (LfsType.tryFromPrimitive type).isSome = true ↔ type ≤ 2 := by
  match type with
  | 0 => decide
  | 1 => decide
  | 2 => decide
  | type + 3 => simp [LfsType.tryFromPrimitive]

theorem panicked_map {α β : Type} (result : Except Fault α) (f : α → β) :
    panicked (result.map f) = panicked result := by
  cases result with
  | error fault => rfl
  | ok value => rfl

/-! ## The ends of a lookup -/

theorem panicked_lookup (hsize : 4 ≤ store.cfg.blockSize) (hcurrent : Current store pair dir)
    (hmask : gmask &&& 0x7fffffff = gmask) :
    panicked (lfsDirGetChecked checks store dir gmask gtag size) =
      (checks && !store.fits dir gmask gtag) := by
  rw [← panicked_map _ fieldOf, lfsDirGetChecked_eq hsize hcurrent hmask]
  unfold walkEnd
  cases checks && !store.fits dir gmask gtag with
  | true => rfl
  | false => cases store.latest dir gmask gtag <;> rfl

/-- A lookup that answers has found the latest tag. -/
theorem latest_of_ok {answer : Word × List Octet} (hsize : 4 ≤ store.cfg.blockSize)
    (hcurrent : Current store pair dir) (hmask : gmask &&& 0x7fffffff = gmask)
    (hget : lfsDirGetChecked checks store dir gmask gtag size = .ok answer) :
    ∃ tag, store.latest dir gmask gtag = some tag ∧ tagOf tag = tagOf answer.1 := by
  have hend : (Except.ok answer).map fieldOf = _ :=
    (congrArg (Except.map fieldOf) hget).symm.trans (lfsDirGetChecked_eq hsize hcurrent hmask)
  unfold walkEnd at hend
  split at hend
  · cases hend
  · cases hlatest : store.latest dir gmask gtag with
    | none =>
        rw [hlatest] at hend
        cases hend
    | some tag =>
        rw [hlatest] at hend
        exact ⟨tag, rfl, (Except.ok.inj hend).symm⟩

/-- A lookup that fails without a panic has found nothing. -/
theorem latest_of_error {fault : Fault} (hsize : 4 ≤ store.cfg.blockSize)
    (hcurrent : Current store pair dir) (hmask : gmask &&& 0x7fffffff = gmask)
    (hget : lfsDirGetChecked checks store dir gmask gtag size = .error fault)
    (hfault : isPanic fault = false) : store.latest dir gmask gtag = none := by
  have hend : (Except.error fault).map fieldOf = _ :=
    (congrArg (Except.map fieldOf) hget).symm.trans (lfsDirGetChecked_eq hsize hcurrent hmask)
  unfold walkEnd at hend
  split at hend
  · cases hend
    cases hfault
  · cases hlatest : store.latest dir gmask gtag with
    | none => rfl
    | some tag =>
        rw [hlatest] at hend
        cases hend

theorem not_and_not_iff {fits : Bool} :
    (checks && !fits) = false ↔ (checks = true → fits = true) := by
  cases checks <;> cases fits <;> decide

/-- `lfs_dir_getinfo` panics where an entry is not named safely. -/
theorem lfsDirGetinfo_returns_iff (hsize : 4 ≤ store.cfg.blockSize)
    (hcurrent : Current store pair dir) :
    panicked (lfsDirGetinfo checks store nameMax dir id info).1 = false ↔
      id = 0x3ff ∨ NamedSafely checks store nameMax dir id := by
  have hnameMask : mktag 0x780 0x3ff 0 &&& 0x7fffffff = mktag 0x780 0x3ff 0 := by decide
  have hstructMask : mktag 0x700 0x3ff 0 &&& 0x7fffffff = mktag 0x700 0x3ff 0 := by decide
  have hname : panicked (lfsDirGetChecked checks store dir _ (nameTag nameMax id) 256) = _ :=
    panicked_lookup hsize hcurrent hnameMask
  have hstruct : panicked (lfsDirGetChecked checks store dir _ (structTag id) 8) = _ :=
    panicked_lookup hsize hcurrent hstructMask
  by_cases hroot : id = 0x3ff
  · rw [lfsDirGetinfo, if_pos hroot]
    exact iff_of_true rfl (Or.inl hroot)
  · rw [lfsDirGetinfo, if_neg hroot, or_iff_right hroot]
    cases hget : lfsDirGetChecked checks store dir (mktag 0x780 0x3ff 0) (nameTag nameMax id)
      256 with
    | error fault =>
        rw [hget] at hname
        change isPanic fault = _ at hname
        change isPanic fault = false ↔ _
        constructor
        · intro hfault
          have hnone := latest_of_error hsize hcurrent hnameMask hget hfault
          rw [hname] at hfault
          apply NamedSafely.mk (not_and_not_iff.mp hfault)
          · intro tag hlatest
            rw [hnone] at hlatest
            cases hlatest
          · intro tag hlatest
            rw [hnone] at hlatest
            cases hlatest
        · intro hsafe
          rw [hname]
          exact not_and_not_iff.mpr hsafe.name_fits
    | ok answer =>
        rw [hget] at hname
        obtain ⟨tag, hlatest, htag⟩ := latest_of_ok hsize hcurrent hnameMask hget
        have hfits : checks = true →
            store.fits dir (mktag 0x780 0x3ff 0) (nameTag nameMax id) = true :=
          not_and_not_iff.mp hname.symm
        have honly : ∀ {P : Word → Prop}, P tag → ∀ tag', store.latest dir (mktag 0x780 0x3ff 0)
            (nameTag nameMax id) = some tag' → P tag' := by
          intro P hP tag' hlatest'
          rwa [← Option.some.inj (hlatest.symm.trans hlatest')]
        have htype : (tagOf answer.1).type3 = (tagOf tag).type3 := congrArg Tag.type3 htag.symm
        simp only [htype]
        cases hconvert : LfsType.tryFromPrimitive ((tagOf tag).type3 % 256) with
        | none =>
            apply iff_of_false
            · exact Bool.noConfusion
            · intro hsafe
              have hsome := (LfsType.tryFromPrimitive_isSome _).mpr (hsafe.type_le tag hlatest)
              rw [hconvert] at hsome
              cases hsome
        | some type =>
            have hle : (tagOf tag).type3 % 256 ≤ 2 :=
              (LfsType.tryFromPrimitive_isSome _).mp (by rw [hconvert]; rfl)
            have hsafe_iff : NamedSafely checks store nameMax dir id ↔
                (checks && !store.fits dir (mktag 0x700 0x3ff 0) (structTag id)) = false := by
              rw [not_and_not_iff]
              constructor
              · intro hsafe
                exact hsafe.struct_fits tag hlatest
              · intro hstructs
                exact ⟨hfits, honly hle, honly hstructs⟩
            rw [hsafe_iff, ← hstruct]
            cases lfsDirGetChecked checks store dir (mktag 0x700 0x3ff 0) (structTag id) 8 with
            | error fault => exact Iff.rfl
            | ok answer =>
                apply iff_of_true
                · simp only
                  split
                  · rfl
                  · split <;> rfl
                · rfl

/-! ## The callers -/

theorem lfsStat_returns_iff {tag : Word} {path : List Octet} :
    panicked (lfsStat checks store nameMax (.ok (dir, tag, path)) info).1 = false ↔
      (0x2f ∈ path ∧ (tagOf tag).type3 ≠ tyDir) ∨
        panicked (lfsDirGetinfo checks store nameMax dir (tagOf tag).id info).1 = false := by
  rw [lfsStat]
  by_cases hnotDir : 0x2f ∈ path ∧ (tagOf tag).type3 ≠ tyDir
  · rw [if_pos hnotDir]
    exact iff_of_true rfl (Or.inl hnotDir)
  · rw [if_neg hnotDir, or_iff_right hnotDir]

/-- A call of `lfs_dir_read_` at an entry that is there. -/
theorem lfsDirReadGo_returns_iff (hid : id < dir.count) (hcount : dir.count < 2 ^ 16)
    (hthere : (lfsDirGetinfo checks store nameMax dir id info).1 ≠ .error (.error .noEntry)) :
    panicked (lfsDirReadGo checks store nameMax (fuel + 1) ⟨dir, id⟩ info) = false ↔
      panicked (lfsDirGetinfo checks store nameMax dir id info).1 = false := by
  have hnext : store.nextMdir ⟨dir, id⟩ = .ok (some ⟨dir, id⟩) := if_neg (ne_of_lt hid)
  have hlast : ¬id = 2 ^ 16 - 1 := by omega
  have hadvance : LfsDir.advance checks ⟨dir, id⟩ = .ok ⟨dir, (id + 1) % 2 ^ 16⟩ := by
    rw [LfsDir.advance, decide_eq_false hlast, Bool.and_false]
    rfl
  rw [lfsDirReadGo, hnext]
  change panicked (match lfsDirGetinfo checks store nameMax dir id info with
    | (.ok (), info) => _
    | (.error (.error .noEntry), info) => _
    | (.error e, _) => _) = false ↔ _
  cases hinfo : lfsDirGetinfo checks store nameMax dir id info with
  | mk result info' =>
      rw [hinfo] at hthere
      cases result with
      | ok value =>
          simp only [hadvance]
          exact iff_of_true rfl rfl
      | error fault =>
          cases fault with
          | error e =>
              cases e with
              | noEntry => exact absurd rfl hthere
              | _ => exact Iff.rfl
          | _ => exact Iff.rfl

/-- What `lfs_dir_getinfo` and its callers need of an entry in order to return: it is
named safely, or its id is the one that stands for the root. -/
theorem getinfo_returns_iff (checks : Bool) (nameMax : ℕ) (hcfg : store.cfg.Accepted)
    {fetched : Fetched} (hfetch : store.fetchmatch Query.fetch pair = some fetched)
    (hid : id < fetched.dir.count) (info : LfsInfo) :
    (panicked (lfsDirGetinfo checks store nameMax fetched.dir id info).1 = false ↔
        id = 0x3ff ∨ NamedSafely checks store nameMax fetched.dir id) ∧
      (∀ tag path, (tagOf tag).id = id →
        (panicked (lfsStat checks store nameMax (.ok (fetched.dir, tag, path)) info).1 = false ↔
          (0x2f ∈ path ∧ (tagOf tag).type3 ≠ tyDir) ∨
            id = 0x3ff ∨ NamedSafely checks store nameMax fetched.dir id)) ∧
      ∀ fuel, (lfsDirGetinfo checks store nameMax fetched.dir id info).1 ≠
          .error (.error .noEntry) →
        (panicked (lfsDirReadGo checks store nameMax (fuel + 1) ⟨fetched.dir, id⟩ info) = false ↔
          id = 0x3ff ∨ NamedSafely checks store nameMax fetched.dir id) := by
  have hsize : 4 ≤ store.cfg.blockSize := Nat.le_trans (by norm_num) hcfg.block_ge
  have hcurrent : Current store pair fetched.dir :=
    Store.fetched_current hsize (Store.inRange_of_fetch hfetch)
      (fun _ _ => Lookup.fetch_clean chain_completeCommits) hfetch
  have hcount := (Store.fetchmatch_bounded hfetch).2.2
  have hinfo : panicked (lfsDirGetinfo checks store nameMax fetched.dir id info).1 = false ↔ _ :=
    lfsDirGetinfo_returns_iff hsize hcurrent
  refine ⟨hinfo, ?_, ?_⟩
  · intro tag path htag
    rw [lfsStat_returns_iff, htag, hinfo]
  · intro fuel hthere
    rw [lfsDirReadGo_returns_iff hid hcount hthere, hinfo]

theorem smallConfig_accepted : smallConfig.Accepted := by
  constructor
  all_goals decide

theorem fileImage_returns :
    ∃ fetched, (blockStore fileImage).fetchmatch Query.fetch (0, 1) = some fetched ∧
      NamedSafely true (blockStore fileImage) 255 fetched.dir 0 := by
  have hcheck : ((blockStore fileImage).fetchmatch Query.fetch (0, 1)).map (fun fetched =>
      (fetched.dir.count,
        panicked (lfsDirGetinfo true (blockStore fileImage) 255 fetched.dir 0 {}).1)) =
        some (1, false) := by decide +kernel
  obtain ⟨fetched, hfetch, hfacts⟩ := Option.map_eq_some_iff.mp hcheck
  have hcount : 0 < fetched.dir.count := by rw [(Prod.mk.inj hfacts).1]; norm_num
  have hreturns := getinfo_returns_iff true 255 smallConfig_accepted hfetch hcount {}
  exact ⟨fetched, hfetch, (hreturns.1.mp (Prod.mk.inj hfacts).2).resolve_left (by norm_num)⟩

/-- Revision 1 and one commit: an entry whose name tag has the type `0x003`. -/
def strangeImage : List Octet :=
  [0x01, 0x00, 0x00, 0x00, 0xbf, 0xef, 0xff, 0xff, 0x40, 0x20, 0x00, 0x01, 0x61, 0x20, 0x20, 0x00,
    0x01, 0x70, 0x1f, 0xfc, 0x04, 0x4b, 0x04, 0xbc, 0x65]

/-- A fetch accepts the entry, and reading its information panics. -/
theorem strangeImage_panics :
    ¬∀ (store : Store) (pair : WordPair) (fetched : Fetched) (id : ℕ), store.cfg.Accepted →
      store.fetchmatch Query.fetch pair = some fetched → id < fetched.dir.count →
      panicked (lfsDirGetinfo false store store.cfg.nameLimit fetched.dir id {}).1 = false := by
  intro hreturns
  have hcheck : ((blockStore strangeImage).fetchmatch Query.fetch (0, 1)).map (fun fetched =>
      (fetched.dir.count, panicked (lfsDirGetinfo false (blockStore strangeImage)
        (blockStore strangeImage).cfg.nameLimit fetched.dir 0 {}).1)) =
        some (1, true) := by decide +kernel
  obtain ⟨fetched, hfetch, hfacts⟩ := Option.map_eq_some_iff.mp hcheck
  have hcount : 0 < fetched.dir.count := by rw [(Prod.mk.inj hfacts).1]; norm_num
  have hpanic := hreturns (blockStore strangeImage) (0, 1) fetched 0 smallConfig_accepted hfetch
    hcount
  rw [(Prod.mk.inj hfacts).2] at hpanic
  cases hpanic

end Littlefs.Disk
