import Littlefs.Disk.Fetchmatch

/-!
# Complete commits

What the bytes of a block say, apart from any scan of them: a commit is a run of
valid tags that a CRC tag with the right checksum closes, and the complete
commits of a block are the longest chain of them from its revision word on.
`entriesFrom` and `nextCommit` read them off; `Entries` and `Complete` say the same
as relations, for inductions from either end.
-/

namespace Littlefs.Disk

open Words

/-- A tag with its data.  `window` is the eight bytes behind the tag word, which is
what the source reads of a tail and a forward CRC. -/
structure Entry where
  tag : Word
  data : List Octet
  window : List Octet
  deriving DecidableEq, Repr

/-- A tag word with its data. -/
abbrev TagData := Word × List Octet

def Entry.tagData (entry : Entry) : TagData := (entry.tag, entry.data)

/-- Where a commit begins: the first byte under its checksum, the place of its
first tag, and the word that this tag is xor-ed with. -/
structure Place where
  start : ℕ
  off : ℕ
  ptag : Word
  deriving DecidableEq, Repr

/-- The first commit has the revision word under its checksum. -/
def Place.first : Place where
  start := 0
  off := 4
  ptag := nullWord

structure LogCommit where
  entries : List Entry
  /-- Its CRC tag stands here. -/
  crcOff : ℕ
  crc : Word
  next : Place
  deriving DecidableEq, Repr

/-- The end of the checksum, and so of all bytes that the commit is made of. -/
def LogCommit.reach (commit : LogCommit) : ℕ := commit.crcOff + 8

section

variable (size : ℕ) (bytes : ℕ → Octet)

def tagAt (off : ℕ) (ptag : Word) : Word := ofBeBytes (Images.read bytes off 4) ^^^ ptag

def entryAt (off : ℕ) (tag : Word) : Entry where
  tag := tag
  data := Images.read bytes (off + 4) ((tagOf tag).dsize - 4)
  window := Images.read bytes (off + 4) 8

/-- A tag that a scan goes past: valid, inside the block, not a CRC tag. -/
def IsEntry (off : ℕ) (tag : Word) : Prop :=
  isvalid tag = true ∧ off + (tagOf tag).dsize ≤ size ∧ (tagOf tag).type2 ≠ tyCcrc

instance (off : ℕ) (tag : Word) : Decidable (IsEntry size off tag) :=
  inferInstanceAs (Decidable (_ ∧ _ ∧ _))

def entriesFrom : ℕ → ℕ → Word → List Entry × ℕ × Word
  | 0, off, ptag => ([], off, ptag)
  | fuel + 1, off, ptag =>
      let tag := tagAt bytes off ptag
      if IsEntry size off tag then
        let rest := entriesFrom fuel (off + (tagOf tag).dsize) tag
        (entryAt bytes off tag :: rest.1, rest.2)
      else
        ([], off, ptag)

/-- The checksum over a commit, up to its CRC tag. -/
def checksum (start crcOff : ℕ) : Word :=
  lfsCrc 0xffffffff (Images.read bytes start (crcOff + 4 - start))

/-- A CRC tag that closes the commit from `start` on. -/
def Closes (start off : ℕ) (tag : Word) : Prop :=
  isvalid tag = true ∧ off + (tagOf tag).dsize ≤ size ∧ (tagOf tag).type2 = tyCcrc ∧
    off + 8 ≤ size ∧ checksum bytes start off = ofLeBytes (Images.read bytes (off + 4) 4)

instance (start off : ℕ) (tag : Word) : Decidable (Closes size bytes start off tag) :=
  inferInstanceAs (Decidable (_ ∧ _ ∧ _ ∧ _ ∧ _))

def closed (start : ℕ) (entries : List Entry) (off : ℕ) (tag : Word) : LogCommit where
  entries := entries
  crcOff := off
  crc := checksum bytes start off
  next :=
    { start := off + (tagOf tag).dsize
      off := off + (tagOf tag).dsize
      ptag := perturb (tagOf tag).chunk tag }

def nextCommit (place : Place) : Option LogCommit :=
  let run := entriesFrom size bytes size place.off place.ptag
  let tag := tagAt bytes run.2.1 run.2.2
  if Closes size bytes place.start run.2.1 tag then
    some (closed bytes place.start run.1 run.2.1 tag)
  else
    none

def commitsFrom : ℕ → Place → List LogCommit
  | 0, _ => []
  | fuel + 1, place =>
      match nextCommit size bytes place with
      | none => []
      | some commit => commit :: commitsFrom fuel commit.next

def completeCommits : List LogCommit := commitsFrom size bytes size Place.first

end

/-- Where a chain of commits from `place` on ends. -/
def endFrom (place : Place) (commits : List LogCommit) : Place :=
  commits.foldl (fun _ commit => commit.next) place

def endOf (commits : List LogCommit) : Place := endFrom Place.first commits

/-- The end of the bytes that the commits of a block are made of. -/
def extent (commits : List LogCommit) : ℕ :=
  commits.foldl (fun _ commit => commit.reach) 4

/-! ## Relations -/

/-- The entries between two places of a block. -/
inductive Entries (size : ℕ) (bytes : ℕ → Octet) : ℕ → Word → List Entry → ℕ → Word → Prop
  | nil (off : ℕ) (ptag : Word) : Entries size bytes off ptag [] off ptag
  | cons {off off' : ℕ} {ptag ptag' : Word} {rest : List Entry}
      (hentry : IsEntry size off (tagAt bytes off ptag))
      (hrest : Entries size bytes (off + (tagOf (tagAt bytes off ptag)).dsize)
        (tagAt bytes off ptag) rest off' ptag') :
      Entries size bytes off ptag (entryAt bytes off (tagAt bytes off ptag) :: rest) off' ptag'

/-- The commit at `place`, complete with its checksum. -/
inductive Complete (size : ℕ) (bytes : ℕ → Octet) (place : Place) : LogCommit → Prop
  | intro {entries : List Entry} {off : ℕ} {ptag : Word}
      (hentries : Entries size bytes place.off place.ptag entries off ptag)
      (hcloses : Closes size bytes place.start off (tagAt bytes off ptag)) :
      Complete size bytes place (closed bytes place.start entries off (tagAt bytes off ptag))

/-- A chain of complete commits. -/
inductive Chain (size : ℕ) (bytes : ℕ → Octet) : Place → List LogCommit → Prop
  | nil (place : Place) : Chain size bytes place []
  | cons {place : Place} {commit : LogCommit} {rest : List LogCommit}
      (hcommit : Complete size bytes place commit)
      (hrest : Chain size bytes commit.next rest) : Chain size bytes place (commit :: rest)

theorem four_le_dsize (tag : Tag) : 4 ≤ tag.dsize := Nat.le_add_right 4 _

variable {size : ℕ} {bytes bytes' : ℕ → Octet} {place : Place} {commit : LogCommit}
  {off off' middle : ℕ} {ptag ptag' mtag : Word} {entries more : List Entry}
  {commits : List LogCommit}

namespace Entries

theorem append (hentries : Entries size bytes off ptag entries middle mtag)
    (hmore : Entries size bytes middle mtag more off' ptag') :
    Entries size bytes off ptag (entries ++ more) off' ptag' := by
  induction hentries with
  | nil off ptag => exact hmore
  | cons hentry hrest ih => exact Entries.cons hentry (ih hmore)

theorem snoc (hentries : Entries size bytes off ptag entries middle mtag)
    (hentry : IsEntry size middle (tagAt bytes middle mtag)) :
    Entries size bytes off ptag (entries ++ [entryAt bytes middle (tagAt bytes middle mtag)])
      (middle + (tagOf (tagAt bytes middle mtag)).dsize) (tagAt bytes middle mtag) :=
  hentries.append (Entries.cons hentry (Entries.nil _ _))

/-- Every entry takes at least four bytes. -/
theorem length_le (hentries : Entries size bytes off ptag entries off' ptag') :
    off + 4 * entries.length ≤ off' := by
  induction hentries with
  | nil off ptag => simp
  | @cons off off' ptag ptag' rest hentry hrest ih =>
      have hsize := four_le_dsize (tagOf (tagAt bytes off ptag))
      simp only [List.length_cons]
      omega

theorem off_le (hentries : Entries size bytes off ptag entries off' ptag') : off ≤ off' := by
  have hlength := hentries.length_le
  omega

theorem le_size (hentries : Entries size bytes off ptag entries off' ptag') (hoff : off ≤ size) :
    off' ≤ size := by
  induction hentries with
  | nil off ptag => exact hoff
  | cons hentry hrest ih => exact ih hentry.2.1

/-- The run of entries that `entriesFrom` reads. -/
theorem of_entriesFrom (fuel : ℕ) (off : ℕ) (ptag : Word) :
    Entries size bytes off ptag (entriesFrom size bytes fuel off ptag).1
      (entriesFrom size bytes fuel off ptag).2.1 (entriesFrom size bytes fuel off ptag).2.2 := by
  induction fuel generalizing off ptag with
  | zero => exact Entries.nil off ptag
  | succ fuel ih =>
      by_cases hentry : IsEntry size off (tagAt bytes off ptag)
      · simp only [entriesFrom, if_pos hentry]
        exact Entries.cons hentry (ih _ _)
      · simp only [entriesFrom, if_neg hentry]
        exact Entries.nil off ptag

/-- A run that stops before something else than an entry is the one that
`entriesFrom` reads. -/
theorem entriesFrom_eq (hentries : Entries size bytes off ptag entries off' ptag') {fuel : ℕ}
    (hfuel : entries.length ≤ fuel) (hstop : ¬IsEntry size off' (tagAt bytes off' ptag')) :
    entriesFrom size bytes fuel off ptag = (entries, off', ptag') := by
  induction hentries generalizing fuel with
  | nil off ptag =>
      cases fuel with
      | zero => rfl
      | succ fuel => simp only [entriesFrom, if_neg hstop]
  | cons hentry hrest ih =>
      cases fuel with
      | zero => simp at hfuel
      | succ fuel =>
          have hrest' := ih (Nat.le_of_succ_le_succ hfuel) hstop
          simp only [entriesFrom, if_pos hentry, hrest']

end Entries

/-! ## The relations and the functions agree -/

theorem Closes.not_isEntry {start : ℕ} {tag : Word} (hcloses : Closes size bytes start off tag) :
    ¬IsEntry size off tag := fun hentry => hentry.2.2 hcloses.2.2.1

theorem nextCommit_eq_some_iff :
    nextCommit size bytes place = some commit ↔ Complete size bytes place commit := by
  constructor
  · intro hnext
    have hentries : Entries size bytes place.off place.ptag _ _ _ :=
      Entries.of_entriesFrom size place.off place.ptag
    simp only [nextCommit] at hnext
    split at hnext
    · rename_i hcloses
      cases Option.some.inj hnext
      exact Complete.intro hentries hcloses
    · cases hnext
  · rintro ⟨hentries, hcloses⟩
    rename_i entries off ptag
    have hfuel : entries.length ≤ size := by
      have hlength := hentries.length_le
      have hsize := hcloses.2.2.2.1
      omega
    have hrun := hentries.entriesFrom_eq hfuel hcloses.not_isEntry
    simp only [nextCommit, hrun, if_pos hcloses]

theorem Complete.unique {commit' : LogCommit} (hcommit : Complete size bytes place commit)
    (hcommit' : Complete size bytes place commit') : commit = commit' := by
  have hsome := nextCommit_eq_some_iff.mpr hcommit
  have hsome' := nextCommit_eq_some_iff.mpr hcommit'
  rw [hsome] at hsome'
  exact Option.some.inj hsome'

theorem nextCommit_eq_none_iff :
    nextCommit size bytes place = none ↔ ∀ commit, ¬Complete size bytes place commit := by
  rw [Option.eq_none_iff_forall_ne_some]
  simp only [ne_eq, nextCommit_eq_some_iff]

namespace Complete

theorem off_le_crcOff (hcommit : Complete size bytes place commit) :
    place.off ≤ commit.crcOff := by
  obtain ⟨hentries, hcloses⟩ := hcommit
  exact hentries.off_le

theorem crcOff_lt (hcommit : Complete size bytes place commit) :
    commit.crcOff + 4 ≤ commit.next.off := by
  obtain ⟨hentries, hcloses⟩ := hcommit
  exact Nat.add_le_add_left (four_le_dsize _) _

theorem next_le (hcommit : Complete size bytes place commit) : commit.next.off ≤ size := by
  obtain ⟨hentries, hcloses⟩ := hcommit
  exact hcloses.2.1

theorem next_start (hcommit : Complete size bytes place commit) :
    commit.next.start = commit.next.off := by
  obtain ⟨hentries, hcloses⟩ := hcommit
  rfl

theorem reach_le (hcommit : Complete size bytes place commit) : commit.reach ≤ size := by
  obtain ⟨hentries, hcloses⟩ := hcommit
  exact hcloses.2.2.2.1

end Complete

namespace Chain

theorem of_commitsFrom (fuel : ℕ) (place : Place) :
    Chain size bytes place (commitsFrom size bytes fuel place) := by
  induction fuel generalizing place with
  | zero => exact Chain.nil place
  | succ fuel ih =>
      cases hnext : nextCommit size bytes place with
      | none =>
          simp only [commitsFrom, hnext]
          exact Chain.nil place
      | some commit =>
          simp only [commitsFrom, hnext]
          exact Chain.cons (nextCommit_eq_some_iff.mp hnext) (ih commit.next)

theorem append {later : List LogCommit} (hchain : Chain size bytes place commits)
    (hlater : Chain size bytes (endFrom place commits) later) :
    Chain size bytes place (commits ++ later) := by
  induction hchain with
  | nil place => exact hlater
  | cons hcommit hrest ih => exact Chain.cons hcommit (ih hlater)

/-- Every commit takes at least four bytes. -/
theorem length_le (hchain : Chain size bytes place commits) :
    place.off + 4 * commits.length ≤ (endFrom place commits).off := by
  induction hchain with
  | nil place => simp [endFrom]
  | @cons place commit rest hcommit hrest ih =>
      have hoff := hcommit.off_le_crcOff
      have hcrc := hcommit.crcOff_lt
      simp only [endFrom, List.foldl_cons, List.length_cons] at ih ⊢
      omega

theorem end_le (hchain : Chain size bytes place commits) (hplace : place.off ≤ size) :
    (endFrom place commits).off ≤ size := by
  induction hchain with
  | nil place => exact hplace
  | cons hcommit hrest ih => exact ih hcommit.next_le

/-- A chain that no complete commit prolongs is the one that `commitsFrom` reads. -/
theorem commitsFrom_eq (hchain : Chain size bytes place commits) {fuel : ℕ}
    (hfuel : commits.length ≤ fuel)
    (hstop : nextCommit size bytes (endFrom place commits) = none) :
    commitsFrom size bytes fuel place = commits := by
  induction hchain generalizing fuel with
  | nil place =>
      cases fuel with
      | zero => rfl
      | succ fuel =>
          have hnone : nextCommit size bytes place = none := hstop
          simp only [commitsFrom, hnone]
  | cons hcommit hrest ih =>
      cases fuel with
      | zero => simp at hfuel
      | succ fuel =>
          have hrest' := ih (Nat.le_of_succ_le_succ hfuel) hstop
          simp only [commitsFrom, nextCommit_eq_some_iff.mpr hcommit, hrest']

theorem completeCommits_eq (hchain : Chain size bytes Place.first commits) (hsize : 4 ≤ size)
    (hstop : nextCommit size bytes (endOf commits) = none) :
    completeCommits size bytes = commits := by
  apply hchain.commitsFrom_eq _ hstop
  have hlength := hchain.length_le
  have hend := hchain.end_le hsize
  omega

end Chain

/-- No complete commit prolongs the complete commits. -/
theorem nextCommit_commitsFrom {fuel : ℕ} (hfuel : size < place.off + 4 * fuel) :
    nextCommit size bytes (endFrom place (commitsFrom size bytes fuel place)) = none := by
  induction fuel generalizing place with
  | zero =>
      rw [nextCommit_eq_none_iff]
      intro commit hcommit
      have hoff : place.off ≤ commit.crcOff := hcommit.off_le_crcOff
      have hreach : commit.crcOff + 8 ≤ size := hcommit.reach_le
      omega
  | succ fuel ih =>
      cases hnext : nextCommit size bytes place with
      | none =>
          simp only [commitsFrom, hnext]
          exact hnext
      | some commit =>
          have hcommit := nextCommit_eq_some_iff.mp hnext
          have hoff := hcommit.off_le_crcOff
          have hcrc := hcommit.crcOff_lt
          have hrest : nextCommit size bytes
              (endFrom commit.next (commitsFrom size bytes fuel commit.next)) = none :=
            ih (by omega)
          simp only [commitsFrom, hnext]
          exact hrest

theorem chain_completeCommits : Chain size bytes Place.first (completeCommits size bytes) :=
  Chain.of_commitsFrom size Place.first

theorem nextCommit_completeCommits :
    nextCommit size bytes (endOf (completeCommits size bytes)) = none := by
  apply nextCommit_commitsFrom
  simp only [Place.first]
  omega

/-! ## The bytes that matter -/

theorem tagAt_congr (hsame : ∀ address, off ≤ address → address < off + 4 →
      bytes address = bytes' address) :
    tagAt bytes off ptag = tagAt bytes' off ptag := by
  rw [tagAt, tagAt, Images.read_congr hsame]

theorem Entries.congr (hentries : Entries size bytes off ptag entries off' ptag')
    (hsame : ∀ address < off' + 8, bytes address = bytes' address) :
    Entries size bytes' off ptag entries off' ptag' := by
  induction hentries with
  | nil off ptag => exact Entries.nil off ptag
  | @cons off off' ptag ptag' rest hentry hrest ih =>
      have hle := hrest.off_le
      have hdsize := four_le_dsize (tagOf (tagAt bytes off ptag))
      have htag : tagAt bytes off ptag = tagAt bytes' off ptag :=
        tagAt_congr fun address _ hlt => hsame address (by omega)
      have hdata : entryAt bytes off (tagAt bytes off ptag) =
          entryAt bytes' off (tagAt bytes off ptag) := by
        simp only [entryAt, Entry.mk.injEq, true_and]
        constructor
        · exact Images.read_congr fun address _ hlt => hsame address (by omega)
        · exact Images.read_congr fun address _ hlt => hsame address (by omega)
      have hrest' := ih hsame
      rw [hdata]
      rw [htag] at hentry hrest' ⊢
      exact Entries.cons hentry hrest'

theorem checksum_congr {start : ℕ} (hsame : ∀ address < off + 4, bytes address = bytes' address) :
    checksum bytes start off = checksum bytes' start off := by
  rw [checksum, checksum]
  by_cases hstart : start ≤ off + 4
  · rw [Images.read_congr fun address _ hlt => hsame address (by omega)]
  · have hzero : off + 4 - start = 0 := by omega
    rw [hzero]
    rfl

theorem Complete.congr (hcommit : Complete size bytes place commit)
    (hsame : ∀ address < commit.reach, bytes address = bytes' address) :
    Complete size bytes' place commit := by
  obtain ⟨hentries, hcloses⟩ := hcommit
  rename_i entries off ptag
  have hreach : ∀ address < off + 8, bytes address = bytes' address := hsame
  have htag : tagAt bytes off ptag = tagAt bytes' off ptag :=
    tagAt_congr fun address _ hlt => hreach address (by omega)
  have hchecksum : checksum bytes place.start off = checksum bytes' place.start off :=
    checksum_congr fun address hlt => hreach address (by omega)
  have hword : Images.read bytes (off + 4) 4 = Images.read bytes' (off + 4) 4 :=
    Images.read_congr fun address _ hlt => hreach address (by omega)
  have hclosed : closed bytes place.start entries off (tagAt bytes off ptag) =
      closed bytes' place.start entries off (tagAt bytes' off ptag) := by
    rw [closed, closed, hchecksum, htag]
  rw [Closes, hchecksum, hword, htag] at hcloses
  rw [hclosed]
  exact Complete.intro (hentries.congr hreach) hcloses

/-- The bytes of a chain reach past the ones of every chain it begins with. -/
theorem Chain.le_extent {low : ℕ} (hchain : Chain size bytes place commits)
    (hlow : low ≤ place.off + 4) :
    low ≤ commits.foldl (fun _ commit => commit.reach) low := by
  induction hchain generalizing low with
  | nil place => exact le_refl low
  | @cons place commit rest hcommit hrest ih =>
      have hoff := hcommit.off_le_crcOff
      have hcrc := hcommit.crcOff_lt
      have hreach : commit.reach = commit.crcOff + 8 := rfl
      have hrest' : commit.reach ≤ rest.foldl (fun _ commit => commit.reach) commit.reach :=
        ih (by omega)
      simp only [List.foldl_cons]
      omega

theorem Chain.congr_from {low : ℕ} (hchain : Chain size bytes place commits)
    (hsame : ∀ address < commits.foldl (fun _ commit => commit.reach) low,
      bytes address = bytes' address) :
    Chain size bytes' place commits := by
  induction hchain generalizing low with
  | nil place => exact Chain.nil place
  | @cons place commit rest hcommit hrest ih =>
      have hcrc := hcommit.crcOff_lt
      have hreach : commit.reach = commit.crcOff + 8 := rfl
      have hextent : commit.reach ≤ rest.foldl (fun _ commit => commit.reach) commit.reach :=
        hrest.le_extent (by omega)
      simp only [List.foldl_cons] at hsame
      apply Chain.cons
      · exact hcommit.congr fun address hlt => hsame address (by omega)
      · exact ih hsame

/-- Blocks that agree on the bytes of a chain both hold it. -/
theorem Chain.congr (hchain : Chain size bytes place commits)
    (hsame : ∀ address < extent commits, bytes address = bytes' address) :
    Chain size bytes' place commits := hchain.congr_from hsame

/-- Replacing the bytes behind the complete commits by bytes that form no further
one leaves the complete commits as they are. -/
theorem completeCommits_congr (hsize : 4 ≤ size)
    (hsame : ∀ address < extent (completeCommits size bytes), bytes address = bytes' address)
    (hstop : nextCommit size bytes' (endOf (completeCommits size bytes)) = none) :
    completeCommits size bytes' = completeCommits size bytes := by
  have hchain : Chain size bytes' Place.first (completeCommits size bytes) :=
    chain_completeCommits.congr hsame
  exact hchain.completeCommits_eq hsize hstop

end Littlefs.Disk
