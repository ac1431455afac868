import Littlefs.Disk.Getread
import Littlefs.Lib.Arithmetic

/-!
# Finalising a commit

`lfs_dir_commitcrc` with the arithmetic of the machine, over block device calls that
may answer and fail as they like.  The end of the commit is rounded up to a program
unit, and the CRC tags that lead there span at most `0x3fe` bytes each.
-/

namespace Littlefs.Disk

open Program Words

/-- The calls of `lfs_bd` that a commit makes, behind their range checks.  A failed
read leaves the buffer alone; `windowEnd` is where the program cache ends. -/
structure Bd (σ : Type) where
  cfg : Config
  blockCount : ℕ
  order : ByteOrder
  checks : Bool
  read : ℕ → Word → ℕ → ℕ → EStateM Error σ (List Octet)
  prog : Word → ℕ → List Octet → EStateM Error σ Unit
  sync : EStateM Error σ Unit
  windowEnd : σ → ℕ

/-- A CRC tag at `off`, with the place of what follows it. -/
structure Closing where
  off : ℕ
  size : ℕ
  next : ℕ
  deriving DecidableEq, Repr

/-- `closings` keeps record of the CRC tags written; no function reads it. -/
structure Finalising (σ : Type) where
  bd : σ
  closings : List Closing := []

abbrev CommitM (σ : Type) := EStateM Fault (Finalising σ)

section

variable {σ α : Type}

def onBd (call : EStateM Error σ α) : CommitM σ α := fun state =>
  match call state.bd with
  | .ok value bd => .ok value { state with bd := bd }
  | .error e bd => .error (.error e) { state with bd := bd }

/-- What the caller sees of a call whose error code it looks at. -/
def result (call : CommitM σ α) : CommitM σ (Except Error α) := attempt Fault.toError? call

def failed (e : Error) : CommitM σ α := throw (.error e)

namespace Bd

variable (bd : Bd σ)

def overflow : Option Fault := if bd.checks then some (.panic .overflow) else none

def addWord (a b : ℕ) : CommitM σ ℕ := Arithmetic.add bd.overflow 32 a b

def subWord (a b : ℕ) : CommitM σ ℕ := Arithmetic.sub bd.overflow 32 a b

/-- A difference of two `usize`s. -/
def subSize (a b : ℕ) : CommitM σ ℕ := Arithmetic.sub bd.overflow 64 a b

/-- `lfs_bd_read`. -/
def lfsBdRead (hint : ℕ) (block : Word) (off size : ℕ) : CommitM σ (List Octet) :=
  if bd.cfg.blockSize < off + size ∨ bd.blockCount ≠ 0 ∧ bd.blockCount ≤ block.toNat then
    failed .corrupt
  else
    onBd (bd.read hint block off size)

/-- The loop of `lfs_bd_crc`; the checksum goes back to the caller with an error too. -/
def lfsBdCrcGo (hint : ℕ) (block : Word) (off size : ℕ) :
    ℕ → ℕ → Word → CommitM σ (Word × Except Error Unit)
  | 0, _, _ => throw .outOfFuel
  | fuel + 1, index, crc =>
      if index < size then do
        let rest ← bd.subSize hint index
        match ← result (bd.lfsBdRead rest block (off + index) (min (size - index) 8)) with
        | .error e => pure (crc, .error e)
        | .ok dat =>
            lfsBdCrcGo hint block off size fuel (index + min (size - index) 8) (lfsCrc crc dat)
      else
        pure (crc, .ok ())

/-- `lfs_bd_crc`. -/
def lfsBdCrc (hint : ℕ) (block : Word) (off size : ℕ) (crc : Word) :
    CommitM σ (Word × Except Error Unit) :=
  bd.lfsBdCrcGo hint block off size (size + 1) 0 crc

/-- `lfs_dir_commitprog`. -/
def lfsDirCommitprog (commit : LfsCommit) (buffer : List Octet) : CommitM σ LfsCommit := do
  onBd (bd.prog commit.block commit.off buffer)
  let off ← bd.addWord commit.off buffer.length
  pure { commit with crc := lfsCrc commit.crc buffer, off := off }

/-- The loop of `lfs_dir_commitattr` over data on the device. -/
def copyFromDisk (block : Word) : ℕ → ℕ → LfsCommit → CommitM σ LfsCommit
  | 0, _, commit => pure commit
  | size + 1, off, commit => do
      let dat ← bd.lfsBdRead (size + 1) block off 1
      let commit ← bd.lfsDirCommitprog commit dat
      copyFromDisk block size (off + 1) commit

/-- The data of an attribute. -/
def progBuffer (commit : LfsCommit) (size : ℕ) : Buffer → CommitM σ LfsCommit
  | .memory data =>
      if data.length < size then throw (.panic .sliceRange)
      else bd.lfsDirCommitprog commit (data.take size)
  | .disk block off => bd.copyFromDisk block size off commit

/-- `lfs_dir_commitattr`. -/
def lfsDirCommitattr (commit : LfsCommit) (attr : LfsMattr) : CommitM σ LfsCommit := do
  let past ← bd.addWord commit.off (tagOf attr.tag).dsize
  if commit.stop < past then
    failed .noSpace
  else
    let ntag := bd.order.be ((attr.tag &&& 0x7fffffff) ^^^ commit.ptag)
    let commit ← bd.lfsDirCommitprog commit (bd.order.bytes ntag)
    let commit ← bd.progBuffer commit ((tagOf attr.tag).dsize - 4) attr.buffer
    pure { commit with ptag := attr.tag &&& 0x7fffffff }

/-- `Err(Corrupt)` is not passed on. -/
def passUnlessCorrupt : Except Error Unit → CommitM σ Unit
  | .error .corrupt => pure ()
  | .error e => failed e
  | .ok () => pure ()

/-- The forward CRC of the unit at `noff`, and the byte that decides about the next
validity bit. -/
def progFcrc (commit : LfsCommit) (noff : ℕ) : CommitM σ (LfsCommit × Octet) := do
  let dat ← result (bd.lfsBdRead bd.cfg.progSize commit.block noff 1)
  passUnlessCorrupt (dat.map fun _ => ())
  let eperturb := (dat.toOption.getD [0xff]).headD 0xff
  let (crc, ret) ← bd.lfsBdCrc bd.cfg.progSize commit.block noff bd.cfg.progSize 0xffffffff
  passUnlessCorrupt ret
  let commit ← bd.lfsDirCommitattr commit
    (fcrcAttr bd.order { size := BitVec.ofNat 32 bd.cfg.progSize, crc := crc })
  pure (commit, eperturb)

/-- Where the next CRC tag ends. -/
def nextOff (stop off : ℕ) : CommitM σ ℕ := do
  let room ← bd.subSize stop (off + 4)
  let noff := min room 0x3fe + (off + 4)
  if noff < stop then do
    let back ← bd.subSize stop 20
    pure (min noff back)
  else
    pure noff

/-- Whether the forward CRC goes in front of the CRC tag. -/
def takesFcrc (stop noff : ℕ) : CommitM σ Bool :=
  if stop ≤ noff then do
    let last ← bd.subSize bd.cfg.blockSize bd.cfg.progSize
    pure (decide (noff ≤ last))
  else
    pure false

/-- Write the CRC tag that ends at `noff`; `first` is `off1` and `crc1`. -/
def progCcrc (commit : LfsCommit) (noff : ℕ) (eperturb : Octet) (first : ℕ × Word) :
    CommitM σ (LfsCommit × ℕ × Word) := do
  let size ← bd.subSize noff (commit.off + 4)
  let ntag := mktag (tyCcrc + (~~~eperturb).toNat / 2 ^ 7) 0x3ff size
  let word := bd.order.be (ntag ^^^ commit.ptag)
  let crc := lfsCrc commit.crc (bd.order.bytes word)
  modify fun state => { state with closings := ⟨commit.off, size, noff⟩ :: state.closings }
  onBd (bd.prog commit.block commit.off (bd.order.bytes word ++ bd.order.bytes (bd.order.le crc)))
  let off1 ← bd.addWord commit.off 4
  pure ({ commit with
      off := noff
      ptag := ntag ^^^ (0x80 &&& ~~~eperturb).setWidth 32 <<< 24
      crc := 0xffffffff },
    if first.1 = 0 then (off1, crc) else first)

/-- The cache is synced at the end, and where its window ends. -/
def syncBehind (stop noff : ℕ) : CommitM σ Unit := do
  let state ← get
  if stop ≤ noff ∨ bd.windowEnd state.bd ≤ noff then onBd bd.sync else pure ()

/-- The forward CRC of the last turn. -/
def fcrcIf (takes : Bool) (commit : LfsCommit) (noff : ℕ) : CommitM σ (LfsCommit × Octet) :=
  if takes then bd.progFcrc commit noff else pure (commit, 0xff)

/-- One turn of the loop. -/
def commitcrcTurn (stop : ℕ) (commit : LfsCommit) (first : ℕ × Word) :
    CommitM σ (LfsCommit × ℕ × Word) := do
  let noff ← bd.nextOff stop commit.off
  let takes ← bd.takesFcrc stop noff
  let (commit, eperturb) ← bd.fcrcIf takes commit noff
  let (commit, first) ← bd.progCcrc commit noff eperturb first
  bd.syncBehind stop noff
  pure (commit, first)

def commitcrcLoop (stop : ℕ) : ℕ → LfsCommit → ℕ × Word → CommitM σ (LfsCommit × ℕ × Word)
  | 0, _, _ => throw .outOfFuel
  | fuel + 1, commit, first =>
      if commit.off < stop then do
        let (commit, first) ← bd.commitcrcTurn stop commit first
        commitcrcLoop stop fuel commit first
      else
        pure (commit, first)

/-- `lfs_bd_crc(..)?` with a checksum that has to come out. -/
def expectCrc (expected : Word) (hint : ℕ) (block : Word) (off size : ℕ) (crc : Word) :
    CommitM σ Word := do
  let (crc, ret) ← bd.lfsBdCrc hint block off size crc
  match ret with
  | .error e => failed e
  | .ok () => if crc ≠ expected then failed .corrupt else pure crc

/-- The end of the commit. -/
def commitEnd (off : ℕ) : CommitM σ ℕ := do
  let past ← bd.addWord off 20
  pure (alignupWord (min past bd.cfg.blockSize) bd.cfg.progSize)

/-- The check of what has been written. -/
def checkCommit (commit : LfsCommit) (off1 : ℕ) (crc1 : Word) : CommitM σ Unit := do
  let hint ← bd.addWord off1 4
  let size ← bd.subWord off1 commit.start
  let crc ← bd.expectCrc crc1 hint commit.block commit.start size 0xffffffff
  let _ ← bd.expectCrc 0 4 commit.block off1 4 crc
  pure ()

/-- `lfs_dir_commitcrc`. -/
def lfsDirCommitcrc (commit : LfsCommit) : CommitM σ LfsCommit := do
  let stop ← bd.commitEnd commit.off
  let (commit, off1, crc1) ← bd.commitcrcLoop stop (stop + 1) commit (0, 0)
  bd.checkCommit commit off1 crc1
  pure commit

end Bd

/-! ## What a CRC tag needs -/

/-- The size goes into the tag, and a padding commit leaves room for the last one. -/
structure Closing.Fits (stop : ℕ) (closing : Closing) : Prop where
  size_ge : 4 ≤ closing.size
  size_le : closing.size ≤ 0x3fe
  room : closing.next < stop → closing.next + 20 ≤ stop

def Finalising.Fit (stop : ℕ) (state : Finalising σ) : Prop :=
  ∀ closing ∈ state.closings, closing.Fits stop

def IsError (fault : Fault) : Prop := ∃ e, fault = .error e

/-- `stop` is where a commit at `off` may end: behind its CRC tag, and behind the forward
CRC too unless that is the end of the block. -/
structure Ending (cfg : Config) (stop off : ℕ) : Prop where
  dvd : cfg.progSize ∣ stop
  stop_le : stop ≤ cfg.blockSize
  room : off + 20 ≤ stop ∨ stop = cfg.blockSize ∧ off + 8 ≤ stop

/-- A program that writes fitting CRC tags only, and fails with error codes only. -/
abbrev Sound (stop : ℕ) (program : CommitM σ α) (post : α → Prop) : Prop :=
  Maintains (Finalising.Fit stop) IsError program post

variable {stop off noff : ℕ} {cfg : Config} {commit : LfsCommit}

namespace Sound

theorem onBd (call : EStateM Error σ α) : Sound stop (onBd call) fun _ => True := by
  intro state hfit
  unfold Outcome Disk.onBd
  cases call state.bd with
  | ok value bd => exact ⟨trivial, hfit⟩
  | error e bd => exact ⟨⟨e, rfl⟩, hfit⟩

theorem failed (e : Error) (post : α → Prop) : Sound stop (failed e : CommitM σ α) post :=
  Maintains.throw ⟨e, rfl⟩

end Sound

namespace Bd

variable {bd : Bd σ}

theorem sound_lfsBdRead (hint : ℕ) (block : Word) (off size : ℕ) :
    Sound stop (bd.lfsBdRead hint block off size) fun _ => True :=
  Maintains.ite (fun _ => Sound.failed _ _) fun _ => Sound.onBd _

theorem sound_subSize {a b : ℕ} (hle : b ≤ a) : Sound stop (bd.subSize a b) (· = a - b) :=
  Arithmetic.keeps_sub hle

theorem sound_addWord {a b : ℕ} (hlt : a + b < 2 ^ 32) : Sound stop (bd.addWord a b) (· = a + b) :=
  Arithmetic.keeps_add hlt

theorem sound_lfsBdCrcGo {hint size index fuel : ℕ} (block : Word) (off : ℕ) (crc : Word)
    (hhint : size ≤ hint) (hindex : index ≤ size) (hfuel : size < index + fuel) :
    Sound stop (bd.lfsBdCrcGo hint block off size fuel index crc) fun _ => True := by
  induction fuel generalizing index crc with
  | zero => omega
  | succ fuel ih =>
      rw [lfsBdCrcGo]
      apply Maintains.ite
      · intro hlt
        apply Maintains.bind (sound_subSize (by omega))
        rintro rest rfl
        apply Maintains.bind (Maintains.attempt (sound_lfsBdRead _ _ _ _))
        intro ret _
        cases ret with
        | error e => exact Maintains.pure trivial
        | ok dat => exact ih _ (by omega) (by omega)
      · exact fun _ => Maintains.pure trivial

theorem sound_lfsBdCrc {hint size : ℕ} (block : Word) (off : ℕ) (crc : Word)
    (hhint : size ≤ hint) : Sound stop (bd.lfsBdCrc hint block off size crc) fun _ => True :=
  sound_lfsBdCrcGo block off crc hhint (Nat.zero_le size) (by omega)

theorem sound_lfsDirCommitprog {buffer : List Octet} (hlt : commit.off + buffer.length < 2 ^ 32) :
    Sound stop (bd.lfsDirCommitprog commit buffer)
      fun commit' => commit'.off = commit.off + buffer.length := by
  apply Maintains.bind (Sound.onBd _)
  intro _ _
  apply Maintains.bind (sound_addWord hlt)
  rintro off rfl
  exact Maintains.pure rfl

theorem dsize_fcrcTag : (tagOf fcrcTag).dsize = 12 := by decide

/-- The forward CRC takes three words. -/
theorem sound_fcrcAttr (fcrc : LfsFcrc) (hlt : commit.off + 12 < 2 ^ 32) :
    Sound stop (bd.lfsDirCommitattr commit (fcrcAttr bd.order fcrc))
      fun commit' => commit'.off = commit.off + 12 := by
  have hdsize : (tagOf (fcrcAttr bd.order fcrc).tag).dsize = 12 := dsize_fcrcTag
  have hlength : (fcrc.bytes bd.order).length = 8 := by
    rw [LfsFcrc.bytes, List.length_append, ByteOrder.length_bytes, ByteOrder.length_bytes]
  have hbuffer : (fcrcAttr bd.order fcrc).buffer = .memory (fcrc.bytes bd.order) := rfl
  rw [lfsDirCommitattr, hdsize, hbuffer]
  apply Maintains.bind (sound_addWord hlt)
  rintro past rfl
  apply Maintains.ite
  · exact fun _ => Sound.failed _ _
  · intro _
    have hword : ∀ word, (bd.order.bytes word).length = 4 := ByteOrder.length_bytes bd.order
    apply Maintains.bind (sound_lfsDirCommitprog (by rw [hword]; omega))
    intro middle hmiddle
    rw [hword] at hmiddle
    have hfits : ¬(fcrc.bytes bd.order).length < 12 - 4 := by omega
    rw [progBuffer, if_neg hfits]
    apply Maintains.bind (sound_lfsDirCommitprog (by rw [List.length_take]; omega))
    intro last hlast
    rw [List.length_take] at hlast
    apply Maintains.pure
    change last.off = commit.off + 12
    omega

theorem sound_passUnlessCorrupt (ret : Except Error Unit) :
    Sound stop (passUnlessCorrupt ret : CommitM σ Unit) fun _ => True := by
  cases ret with
  | ok value => exact Maintains.pure trivial
  | error e => cases e <;> first | exact Maintains.pure trivial | exact Sound.failed _ _

theorem sound_progFcrc (hlt : commit.off + 12 < 2 ^ 32) :
    Sound stop (bd.progFcrc commit noff) fun value => value.1.off = commit.off + 12 := by
  apply Maintains.bind (Maintains.attempt (sound_lfsBdRead _ _ _ _))
  intro dat _
  apply Maintains.bind (sound_passUnlessCorrupt _)
  intro _ _
  apply Maintains.bind (sound_lfsBdCrc _ _ _ (le_refl _))
  intro ret _
  apply Maintains.bind (sound_passUnlessCorrupt _)
  intro _ _
  apply Maintains.bind (sound_fcrcAttr _ hlt)
  intro commit' hoff
  exact Maintains.pure hoff

/-- The next CRC tag spans four bytes at least, and either ends the commit or leaves
room for the last one. -/
theorem sound_nextOff (hending : Ending cfg stop off) :
    Sound stop (bd.nextOff stop off) fun noff =>
      off + 8 ≤ noff ∧ noff ≤ off + 4 + 0x3fe ∧ (noff = stop ∨ noff + 20 ≤ stop) := by
  have hroom := hending.room
  apply Maintains.bind (sound_subSize (by omega))
  rintro room rfl
  apply Maintains.ite
  · intro hlt
    apply Maintains.bind (sound_subSize (by omega))
    rintro back rfl
    exact Maintains.pure (by omega)
  · exact fun hle => Maintains.pure (by omega)

theorem sound_takesFcrc (hprog : bd.cfg.progSize ≤ bd.cfg.blockSize) :
    Sound stop (bd.takesFcrc stop noff) fun takes =>
      takes = true → stop ≤ noff ∧ noff ≤ bd.cfg.blockSize - bd.cfg.progSize := by
  apply Maintains.ite
  · intro hle
    apply Maintains.bind (sound_subSize hprog)
    rintro last rfl
    exact Maintains.pure fun htakes => ⟨hle, of_decide_eq_true htakes⟩
  · exact fun _ => Maintains.pure fun htakes => absurd htakes Bool.false_ne_true

theorem sound_progCcrc (eperturb : Octet) (first : ℕ × Word) (hge : commit.off + 8 ≤ noff)
    (hle : noff ≤ commit.off + 4 + 0x3fe) (hroom : noff = stop ∨ noff + 20 ≤ stop)
    (hlt : commit.off + 4 < 2 ^ 32) :
    Sound stop (bd.progCcrc commit noff eperturb first) fun value => value.1.off = noff := by
  apply Maintains.bind (sound_subSize (by omega))
  rintro size rfl
  apply Maintains.bind
  · apply Maintains.modify
    intro state hfit closing hmem
    obtain rfl | hmem := List.mem_cons.mp hmem
    · exact ⟨by simp only; omega, by simp only; omega, by simp only; omega⟩
    · exact hfit closing hmem
  · intro _ _
    apply Maintains.bind (Sound.onBd _)
    intro _ _
    apply Maintains.bind (sound_addWord hlt)
    intro off1 _
    exact Maintains.pure rfl

theorem sound_syncBehind : Sound stop (bd.syncBehind stop noff) fun _ => True := by
  apply Maintains.bind Maintains.get
  intro state _
  exact Maintains.ite (fun _ => Sound.onBd _) fun _ => Maintains.pure trivial

/-- A turn ends the commit, or goes eight bytes on and leaves room for the end. -/
theorem sound_commitcrcTurn (first : ℕ × Word) (hprog : bd.cfg.progSize ≤ bd.cfg.blockSize)
    (hword : bd.cfg.blockSize < 2 ^ 32) (hpos : 0 < bd.cfg.progSize)
    (hending : Ending bd.cfg stop commit.off) :
    Sound stop (bd.commitcrcTurn stop commit first) fun value =>
      commit.off + 8 ≤ value.1.off ∧ (value.1.off = stop ∨ value.1.off + 20 ≤ stop) := by
  have hstop := hending.stop_le
  have hroom := hending.room
  apply Maintains.bind (sound_nextOff hending)
  rintro noff ⟨hge, hle, hnext⟩
  apply Maintains.bind (sound_takesFcrc hprog)
  intro takes htakes
  have hfcrc : Sound stop (bd.fcrcIf takes commit noff) fun value =>
      value.1.off + 8 ≤ noff ∧ noff ≤ value.1.off + 4 + 0x3fe := by
    apply Maintains.ite
    · intro htrue
      obtain ⟨hlast, hunit⟩ := htakes htrue
      apply (sound_progFcrc (by omega)).imp
      intro value hoff
      omega
    · exact fun _ => Maintains.pure ⟨hge, hle⟩
  apply Maintains.bind hfcrc
  rintro ⟨commit', eperturb⟩ ⟨hge', hle'⟩
  simp only at hge' hle'
  apply Maintains.bind (sound_progCcrc eperturb first hge' hle' hnext (by omega))
  rintro ⟨last, first'⟩ hoff
  apply Maintains.bind sound_syncBehind
  intro _ _
  apply Maintains.pure
  simp only at hoff ⊢
  omega

/-- The loop ends where the commit does. -/
theorem sound_commitcrcLoop {fuel : ℕ} (first : ℕ × Word)
    (hprog : bd.cfg.progSize ≤ bd.cfg.blockSize) (hword : bd.cfg.blockSize < 2 ^ 32)
    (hpos : 0 < bd.cfg.progSize) (hending : stop ≤ commit.off ∨ Ending bd.cfg stop commit.off)
    (hsome : 0 < fuel) (hfuel : stop < commit.off + fuel) :
    Sound stop (bd.commitcrcLoop stop fuel commit first) fun value =>
      (stop ≤ commit.off → value = (commit, first)) ∧
        (commit.off < stop → value.1.off = stop) := by
  induction fuel generalizing commit first with
  | zero => cases hsome
  | succ fuel ih =>
      rw [commitcrcLoop]
      apply Maintains.ite
      · intro hlt
        obtain hle | hending := hending
        · omega
        · apply Maintains.bind (sound_commitcrcTurn first hprog hword hpos hending)
          rintro ⟨commit', first'⟩ ⟨hge, hnext⟩
          simp only at hge hnext ⊢
          have hending' : stop ≤ commit'.off ∨ Ending bd.cfg stop commit'.off := by
            obtain hend | hroom := hnext
            · exact Or.inl (Nat.le_of_eq hend.symm)
            · exact Or.inr ⟨hending.dvd, hending.stop_le, Or.inl hroom⟩
          apply (ih first' hending' (by omega) (by omega)).imp
          rintro value ⟨hsame, hends⟩
          refine ⟨fun hle => by omega, fun _ => ?_⟩
          obtain hend | hroom := hnext
          · rw [hsame (Nat.le_of_eq hend.symm)]
            exact hend
          · exact hends (by omega)
      · exact fun hle => Maintains.pure ⟨fun _ => rfl, fun hlt => absurd hlt hle⟩

/-! ## The end of the commit -/

/-- The sum wraps only where nothing is left below a unit. -/
theorem alignupWord_cases {a alignment : ℕ} (ha : a < 2 ^ 32) (hpos : 0 < alignment)
    (hlt : alignment < 2 ^ 32) :
    alignupWord a alignment = lfsAlignup a alignment ∨ alignupWord a alignment = 0 := by
  by_cases hsum : a + alignment ≤ 2 ^ 32
  · have hword : (a + alignment + (2 ^ 32 - 1)) % 2 ^ 32 = a + alignment - 1 := by omega
    rw [alignupWord, hword]
    exact Or.inl rfl
  · have hword : (a + alignment + (2 ^ 32 - 1)) % 2 ^ 32 = a + alignment - 1 - 2 ^ 32 := by omega
    have hmod : (a + alignment - 1 - 2 ^ 32) % alignment = a + alignment - 1 - 2 ^ 32 :=
      Nat.mod_eq_of_lt (by omega)
    rw [alignupWord, hword, lfsAligndown, hmod]
    exact Or.inr (Nat.sub_self _)

theorem lfsAlignup_lt {a alignment : ℕ} (hpos : 0 < alignment) :
    lfsAlignup a alignment < a + alignment := by
  rw [lfsAlignup, lfsAligndown]
  omega

theorem ending_of_accepted (haccepted : cfg.Accepted) (hoff : off + 8 ≤ cfg.blockSize)
    (hstop : stop = alignupWord (min ((off + 20) % 2 ^ 32) cfg.blockSize) cfg.progSize) :
    stop ≤ off ∨ Ending cfg stop off := by
  have hpos : 0 < cfg.progSize := Nat.pos_of_ne_zero haccepted.prog_ne
  have hword := haccepted.block_word
  have hdvd : cfg.progSize ∣ cfg.blockSize := haccepted.prog_dvd.trans haccepted.cache_dvd
  have hprog : cfg.progSize ≤ cfg.blockSize := Nat.le_of_dvd (by omega) hdvd
  obtain hup | hzero := alignupWord_cases
    (Nat.lt_of_le_of_lt (min_le_right ((off + 20) % 2 ^ 32) cfg.blockSize) hword) hpos
    (Nat.lt_of_le_of_lt hprog hword)
  · rw [hup] at hstop
    have hunit : cfg.progSize ∣ stop := hstop ▸ dvd_lfsAlignup _ _
    have hle : stop ≤ cfg.blockSize := by
      rw [hstop]
      exact lfsAlignup_le hpos (min_le_right _ _) hdvd
    have hge : min ((off + 20) % 2 ^ 32) cfg.blockSize ≤ stop := by
      rw [hstop]
      exact le_lfsAlignup hpos
    have hnear : stop < min ((off + 20) % 2 ^ 32) cfg.blockSize + cfg.progSize := by
      rw [hstop]
      exact lfsAlignup_lt hpos
    by_cases hbehind : stop ≤ off
    · exact Or.inl hbehind
    · refine Or.inr ⟨hunit, hle, ?_⟩
      by_cases hwrap : off + 20 < 2 ^ 32
      · rw [Nat.mod_eq_of_lt hwrap] at hge
        omega
      · -- the sum has wrapped: only a block of one unit ends behind `off`
        obtain ⟨units, hunits⟩ := hdvd
        have hone : units = 1 := by
          have hlarge : 2 ^ 32 - 20 ≤ cfg.progSize := by omega
          have hsome : units ≠ 0 := by
            rintro rfl
            omega
          have hfew : ¬2 ≤ units := by
            intro htwo
            have hmul : cfg.progSize * 2 ≤ cfg.progSize * units := Nat.mul_le_mul_left _ htwo
            omega
          omega
        rw [hone, Nat.mul_one] at hunits
        have hfull : cfg.progSize ≤ stop := Nat.le_of_dvd (by omega) hunit
        omega
  · rw [hzero] at hstop
    exact Or.inl (by omega)

variable {state state' : Finalising σ} {crc crc' : Word} {block : Word} {hint size index fuel : ℕ}

theorem commitEnd_ok (hrun : bd.commitEnd off state = .ok stop state') :
    stop = alignupWord (min ((off + 20) % 2 ^ 32) bd.cfg.blockSize) bd.cfg.progSize ∧
      state' = state := by
  obtain ⟨past, middle, hadd, hpure⟩ := bind_eq_ok.mp hrun
  obtain ⟨rfl, rfl⟩ := Arithmetic.add_ok hadd
  obtain ⟨rfl, rfl⟩ := pure_eq_ok.mp hpure
  exact ⟨rfl, rfl⟩

/-! ## A commit that ends where it is -/

theorem lfsBdRead_ok {dat : List Octet}
    (hrun : bd.lfsBdRead hint block off size state = .ok dat state') :
    off + size ≤ bd.cfg.blockSize := by
  rw [lfsBdRead] at hrun
  split at hrun
  · exact absurd hrun throw_ne_ok
  · omega

/-- A checksum comes out only of bytes inside the block. -/
theorem lfsBdCrcGo_ok (hindex : index ≤ size)
    (hrun : bd.lfsBdCrcGo hint block off size fuel index crc state = .ok (crc', .ok ()) state') :
    index = size ∧ crc' = crc ∨ index < size ∧ off + size ≤ bd.cfg.blockSize := by
  induction fuel generalizing index crc state with
  | zero => exact absurd hrun throw_ne_ok
  | succ fuel ih =>
      rw [lfsBdCrcGo] at hrun
      split at hrun
      · rename_i hlt
        obtain ⟨rest, middle, -, hrun⟩ := bind_eq_ok.mp hrun
        obtain ⟨ret, middle', hread, hrun⟩ := bind_eq_ok.mp hrun
        cases ret with
        | error e =>
            obtain ⟨hvalue, -⟩ := pure_eq_ok.mp hrun
            cases hvalue
        | ok dat =>
            have hin := lfsBdRead_ok (attempt_eq_ok_ok.mp hread)
            obtain ⟨hend, -⟩ | ⟨-, hin'⟩ := ih (by omega) hrun
            · exact Or.inr ⟨hlt, by omega⟩
            · exact Or.inr ⟨hlt, hin'⟩
      · rename_i hge
        obtain ⟨hvalue, -⟩ := pure_eq_ok.mp hrun
        cases hvalue
        exact Or.inl ⟨by omega, rfl⟩

theorem expectCrc_ok {expected : Word}
    (hrun : bd.expectCrc expected hint block off size crc state = .ok crc' state') :
    size = 0 ∧ expected = crc ∨ 0 < size ∧ off + size ≤ bd.cfg.blockSize := by
  obtain ⟨⟨crc', ret⟩, middle, hcrc, hrun⟩ := bind_eq_ok.mp hrun
  cases ret with
  | error e => exact absurd hrun throw_ne_ok
  | ok value =>
      simp only at hrun
      split at hrun
      · exact absurd hrun throw_ne_ok
      · rename_i hsame
        obtain ⟨hend, hcrc⟩ | hin := lfsBdCrcGo_ok (Nat.zero_le size) hcrc
        · exact Or.inl ⟨hend.symm, (not_not.mp hsame).symm.trans hcrc⟩
        · exact Or.inr hin

/-- Without a CRC tag written the check cannot succeed. -/
theorem checkCommit_ne_ok (hstart : commit.start < 2 ^ 32) (hword : bd.cfg.blockSize < 2 ^ 32)
    (value : Unit) : bd.checkCommit commit 0 0 state ≠ .ok value state' := by
  intro hrun
  obtain ⟨hint, middle, -, hrun⟩ := bind_eq_ok.mp hrun
  obtain ⟨size, middle, hsub, hrun⟩ := bind_eq_ok.mp hrun
  obtain ⟨crc, middle, hcrc, -⟩ := bind_eq_ok.mp hrun
  obtain ⟨hsize, -⟩ := Arithmetic.sub_ok (by norm_num) hsub
  obtain ⟨-, hexpected⟩ | ⟨hsome, hin⟩ := expectCrc_ok hcrc
  · exact absurd hexpected (by decide)
  · omega

end Bd

/-- The commit is finalised in bounds.  Where a difference underflows, a build with
checks panics; the loop has no such run, it ends, and its CRC tags fit.  A commit that
is finalised has moved on to the end of a program unit inside the block. -/
theorem lfsDirCommitcrc_inBounds (bd : Bd σ) (haccepted : bd.cfg.Accepted) (commit : LfsCommit)
    (hstart : commit.start ≤ commit.off) (hoff : commit.off + 8 ≤ bd.cfg.metadataLimit)
    (device : σ) :
    (∀ stop state, bd.commitEnd commit.off ⟨device, []⟩ = .ok stop state →
      Outcome (bd.commitcrcLoop stop (stop + 1) commit (0, 0)) (fun _ state => state.Fit stop)
        (fun fault state => IsError fault ∧ state.Fit stop) state) ∧
      Outcome (bd.lfsDirCommitcrc commit)
        (fun commit' _ => bd.cfg.progSize ∣ commit'.off ∧ commit'.off ≤ bd.cfg.blockSize ∧
          commit.off < commit'.off) (fun _ _ => True) ⟨device, []⟩ := by
  have hpos : 0 < bd.cfg.progSize := Nat.pos_of_ne_zero haccepted.prog_ne
  have hword := haccepted.block_word
  have hblock := haccepted.block_ge
  have hprog : bd.cfg.progSize ≤ bd.cfg.blockSize :=
    Nat.le_of_dvd (by omega) (haccepted.prog_dvd.trans haccepted.cache_dvd)
  have hlimit : bd.cfg.metadataLimit ≤ bd.cfg.blockSize := by
    have hmetadata := haccepted.metadata_le
    rw [Config.metadataLimit]
    split <;> omega
  have hloop : ∀ stop state, bd.commitEnd commit.off ⟨device, []⟩ = .ok stop state →
      (stop ≤ commit.off ∨ Ending bd.cfg stop commit.off) ∧
        Outcome (bd.commitcrcLoop stop (stop + 1) commit (0, 0))
          (fun value state => ((stop ≤ commit.off → value = (commit, (0, 0))) ∧
            (commit.off < stop → value.1.off = stop)) ∧ state.Fit stop)
          (fun fault state => IsError fault ∧ state.Fit stop) state := by
    intro stop state hend
    obtain ⟨hstop, rfl⟩ := Bd.commitEnd_ok hend
    have hending : stop ≤ commit.off ∨ Ending bd.cfg stop commit.off :=
      Bd.ending_of_accepted haccepted (Nat.le_trans hoff hlimit) hstop
    refine ⟨hending, ?_⟩
    have hfuel : stop < commit.off + (stop + 1) := by omega
    apply Bd.sound_commitcrcLoop (0, 0) hprog hword hpos hending (Nat.succ_pos stop) hfuel
    exact fun closing hmem => absurd hmem List.not_mem_nil
  constructor
  · intro stop state hend
    exact (hloop stop state hend).2.imp (fun _ _ hvalue => hvalue.2) fun _ _ hfault => hfault
  · apply Outcome.intro ?_ fun _ _ _ => trivial
    intro commit' state' hrun
    obtain ⟨stop, state, hend, hrun⟩ := bind_eq_ok.mp hrun
    obtain ⟨⟨last, off1, crc1⟩, middle, hturns, hrun⟩ := bind_eq_ok.mp hrun
    obtain ⟨_, _, hcheck, hpure⟩ := bind_eq_ok.mp hrun
    obtain ⟨rfl, -⟩ := pure_eq_ok.mp hpure
    obtain ⟨hending, houtcome⟩ := hloop stop state hend
    obtain ⟨⟨hsame, hends⟩, -⟩ := houtcome.of_ok hturns
    by_cases hbehind : stop ≤ commit.off
    · cases hsame hbehind
      exact absurd hcheck (Bd.checkCommit_ne_ok (by omega) hword _)
    · obtain hle | hending := hending
      · exact absurd hle hbehind
      · have hlast : last.off = stop := hends (Nat.not_le.mp hbehind)
        rw [hlast]
        exact ⟨hending.dvd, hending.stop_le, Nat.not_le.mp hbehind⟩

/-- One block in memory. -/
def memoryBd (cfg : Config) : Bd (ℕ → Octet) where
  cfg := cfg
  blockCount := cfg.blockCount
  order := .little
  checks := true
  read := fun _ _ off size => do
    let image ← get
    pure (Images.read image off size)
  prog := fun _ off data => modify fun image => Images.write image off data
  sync := pure ()
  windowEnd := fun _ => cfg.cacheSize

/-- A commit that has written nothing but its revision. -/
def emptyCommit : LfsCommit where
  block := 0
  off := 4
  ptag := 0xffffffff
  crc := 0xffffffff
  start := 4
  stop := 504

theorem memoryBd_ends :
    ∃ commit' state', (memoryBd defaultConfig).lfsDirCommitcrc emptyCommit ⟨fun _ => 0xff, []⟩ =
        .ok commit' state' ∧ commit'.off = 32 := by
  have hends : endsWith (fun commit' => decide (commit'.off = 32))
      ((memoryBd defaultConfig).lfsDirCommitcrc emptyCommit ⟨fun _ => 0xff, []⟩) = true := by
    decide +kernel
  obtain ⟨commit', state', hrun, hoff⟩ := exists_ok_of_endsWith hends
  exact ⟨commit', state', hrun, of_decide_eq_true hoff⟩

theorem memoryBd_inBounds :
    ∃ commit' state', (memoryBd defaultConfig).lfsDirCommitcrc emptyCommit ⟨fun _ => 0xff, []⟩ =
        .ok commit' state' ∧ commit'.off = 32 ∧ 16 ∣ commit'.off ∧ commit'.off ≤ 512 ∧
          4 < commit'.off := by
  obtain ⟨commit', state', hrun, hoff⟩ := memoryBd_ends
  have hcfg : (memoryBd defaultConfig).cfg = defaultConfig := rfl
  have hstart : emptyCommit.start ≤ emptyCommit.off := le_refl 4
  have hroom : emptyCommit.off + 8 ≤ defaultConfig.metadataLimit := by decide
  have hfour : emptyCommit.off = 4 := rfl
  generalize memoryBd defaultConfig = bd at hrun hcfg ⊢
  generalize emptyCommit = commit at hrun hstart hroom hfour ⊢
  rw [← hcfg] at hroom
  have haccepted : bd.cfg.Accepted := hcfg ▸ defaultConfig_accepted
  have hbounds := (lfsDirCommitcrc_inBounds bd haccepted commit hstart hroom _).2.of_ok hrun
  rw [hcfg, hfour] at hbounds
  exact ⟨commit', state', hrun, hoff, hbounds⟩

end

end Littlefs.Disk
