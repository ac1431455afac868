import Littlefs.Disk.Getread
import Littlefs.Lib.Machines

/-!
# Reading through the caches

The loop of `lfs_bd_read`, one turn at a time.  A turn copies from the program cache
or from the read cache, reads past the caches, or loads the read cache again.  What a
read gives is the device's contents under the bytes that the program cache holds.
-/

namespace Littlefs.Disk

open Words

/-- A device whose reads give its contents or fail: `fails` is given the number of the
access, and says with which error and what is then left in the buffer. -/
structure Storage where
  bytes : Word → ℕ → Octet
  fails : ℕ → Option (Error × List Octet)

/-- `a - b` of two `usize`s, without overflow checks. -/
def wrappingSub (a b : ℕ) : ℕ := (a + 2 ^ 64 - b) % 2 ^ 64

/-- The cache is of `block` and ends behind `off`. -/
def LfsCache.Reaches (cache : LfsCache) (block : Word) (off : ℕ) : Prop :=
  block = cache.block ∧ off < cache.off + cache.size

instance (cache : LfsCache) (block : Word) (off : ℕ) : Decidable (cache.Reaches block off) :=
  inferInstanceAs (Decidable (_ ∧ _))

/-- The cache has the byte of `block` at `off`. -/
def LfsCache.Covers (cache : LfsCache) (block : Word) (off : ℕ) : Prop :=
  cache.Reaches block off ∧ cache.off ≤ off

instance (cache : LfsCache) (block : Word) (off : ℕ) : Decidable (cache.Covers block off) :=
  inferInstanceAs (Decidable (_ ∧ _))

/-- What a call of `lfs_bd_read` is given; `capacity` is the length of the buffer of
the read cache. -/
structure BdRead where
  cfg : Config
  blockCount : ℕ
  capacity : ℕ
  storage : Storage
  pcache : Option LfsCache
  hint : ℕ
  block : Word

/-- The variables of the loop, with the bytes read so far and the number of accesses. -/
structure BdReading where
  rcache : LfsCache
  off : ℕ
  size : ℕ
  data : List Octet := []
  clock : ℕ := 0

abbrev BdReadResult := Except Error (List Octet) × LfsCache

/-- `diff` bytes on. -/
def BdReading.take (reading : BdReading) (diff : ℕ) (bytes : List Octet) : BdReading :=
  { reading with
    off := reading.off + diff
    size := reading.size - diff
    data := reading.data ++ bytes }

namespace BdRead

variable (call : BdRead)

/-- Read past the caches. -/
def bypass (reading : BdReading) (diff : ℕ) : BdReading ⊕ BdReadResult :=
  match call.storage.fails reading.clock with
  | some (e, _) => .inr (.error e, reading.rcache)
  | none =>
      .inl { reading.take diff
        (Images.read (call.storage.bytes call.block) reading.off diff) with
        clock := reading.clock + 1 }

/-- The end that the hint asks for. -/
def hinted (off : ℕ) : ℕ := alignupWord ((off + call.hint) % 2 ^ 32) call.cfg.readSize

/-- The fields of `rcache` before a load; a difference that underflows wraps. -/
def aim (rcache : LfsCache) (off : ℕ) : LfsCache :=
  let start := lfsAligndown off call.cfg.readSize
  { rcache with
    block := call.block
    off := start
    size := min (wrappingSub (min (call.hinted off) call.cfg.blockSize) start) call.capacity }

/-- The read cache after a load. -/
def load (rcache : LfsCache) (off : ℕ) : LfsCache :=
  let rcache := call.aim rcache off
  { rcache with
    buffer := Images.write rcache.buffer 0
      (Images.read (call.storage.bytes call.block) rcache.off rcache.size) }

/-- Load the read cache.  After a failed read it holds no block. -/
def refill (reading : BdReading) : BdReading ⊕ BdReadResult :=
  match call.storage.fails reading.clock with
  | some (e, left) =>
      let rcache := call.aim reading.rcache reading.off
      .inr (.error e, { rcache with
        block := nullWord
        buffer := Images.write rcache.buffer 0 (left.take rcache.size) })
  | none =>
      .inl { reading with
        rcache := call.load reading.rcache reading.off
        clock := reading.clock + 1 }

def deviceTurn (reading : BdReading) (diff : ℕ) : BdReading ⊕ BdReadResult :=
  if call.hint ≤ reading.size ∧ call.cfg.readSize ∣ reading.off ∧
      call.cfg.readSize ≤ reading.size then
    call.bypass reading (lfsAligndown diff call.cfg.readSize)
  else
    call.refill reading

/-- Copy from a cache. -/
def copy (reading : BdReading) (cache : LfsCache) (diff : ℕ) : BdReading ⊕ BdReadResult :=
  .inl (reading.take (min diff (cache.size - (reading.off - cache.off)))
    (cache.copy reading.off (min diff (cache.size - (reading.off - cache.off)))))

def rcacheTurn (reading : BdReading) (diff : ℕ) : BdReading ⊕ BdReadResult :=
  if reading.rcache.Reaches call.block reading.off then
    if reading.rcache.off ≤ reading.off then
      copy reading reading.rcache diff
    else
      call.deviceTurn reading (min diff (reading.rcache.off - reading.off))
  else
    call.deviceTurn reading diff

/-- One turn of the loop of `lfs_bd_read`. -/
def turn (reading : BdReading) : BdReading ⊕ BdReadResult :=
  if reading.size = 0 then
    .inr (.ok reading.data, reading.rcache)
  else
    match call.pcache.filter fun pcache => decide (pcache.Reaches call.block reading.off) with
    | some pcache =>
        if pcache.off ≤ reading.off then
          copy reading pcache reading.size
        else
          call.rcacheTurn reading (min reading.size (pcache.off - reading.off))
    | none => call.rcacheTurn reading reading.size

/-- `lfs_bd_read`, with the buffer's bytes as its answer; `none` says that the loop has
not come to its end. -/
def lfsBdRead (rcache : LfsCache) (off size fuel : ℕ) : Option BdReadResult :=
  if call.cfg.blockSize < off + size ∨
      call.blockCount ≠ 0 ∧ call.blockCount ≤ call.block.toNat then
    some (.error .corrupt, rcache)
  else
    Machines.run call.turn fuel { rcache := rcache, off := off, size := size }

/-! ## What a read is to give -/

/-- The byte of the program cache where it has the position, the device's elsewhere. -/
def overlay (off : ℕ) : Octet :=
  match call.pcache.filter fun pcache => decide (pcache.Covers call.block off) with
  | some pcache => pcache.buffer (off - pcache.off)
  | none => call.storage.bytes call.block off

end BdRead

/-- A block, and not one of the marks that a cache carries in the place of one. -/
def IsBlock (block : Word) : Prop := block ≠ nullWord ∧ block ≠ inlineWord

/-- The bytes of a cache that holds a block are the device's. -/
structure LfsCache.Mirrors (cache : LfsCache) (storage : Storage) (capacity : ℕ) : Prop where
  size_le : IsBlock cache.block → cache.size ≤ capacity
  bytes_eq : IsBlock cache.block → ∀ index < cache.size,
    cache.buffer index = storage.bytes cache.block (cache.off + index)

variable {call : BdRead} {reading next : BdReading} {rcache pcache : LfsCache}
  {off size diff : ℕ}

/-- What every turn keeps. -/
structure BdRead.Going (call : BdRead) (off size : ℕ) (reading : BdReading) : Prop where
  coherent : reading.rcache.Mirrors call.storage call.capacity
  aligned : call.cfg.readSize ∣ reading.rcache.off
  off_le : off ≤ reading.off
  end_eq : reading.off + reading.size = off + size
  data_eq : reading.data = Images.read call.overlay off (reading.off - off)

/-- What a call is promised. -/
structure BdRead.Proper (call : BdRead) (off size : ℕ) : Prop where
  read_pos : 0 < call.cfg.readSize
  read_le : call.cfg.readSize ≤ call.capacity
  block_word : call.cfg.blockSize < 2 ^ 32
  inside : off + size ≤ call.cfg.blockSize
  block : IsBlock call.block
  pcache_aligned : ∀ pcache, call.pcache = some pcache → call.cfg.readSize ∣ pcache.off

/-- The end that the hint asks for is behind every offset of the read. -/
def BdRead.HintAhead (call : BdRead) (off size : ℕ) : Prop :=
  ∀ position, off ≤ position → position < off + size → position < call.hinted position

/-! ## One turn -/

theorem lt_lfsAligndown_add {a alignment : ℕ} (hpos : 0 < alignment) :
    a < lfsAligndown a alignment + alignment := by
  have hmod := Nat.mod_lt a hpos
  rw [lfsAligndown]
  omega

theorem lfsAligndown_pos {a alignment : ℕ} (hle : alignment ≤ a) (hpos : 0 < alignment) :
    0 < lfsAligndown a alignment := by
  have hlt := lt_lfsAligndown_add (a := a) hpos
  omega

namespace BdRead

theorem overlay_of_covers (hpcache : call.pcache = some pcache)
    (hcovers : pcache.Covers call.block off) :
    call.overlay off = pcache.buffer (off - pcache.off) := by
  rw [overlay, hpcache, Option.filter_some, decide_eq_true hcovers, if_pos rfl]

/-- No byte of the program cache stands at `off`. -/
def Bare (call : BdRead) (off : ℕ) : Prop :=
  ∀ pcache, call.pcache = some pcache → ¬pcache.Covers call.block off

theorem overlay_of_bare (hbare : call.Bare off) :
    call.overlay off = call.storage.bytes call.block off := by
  rw [overlay]
  cases hpcache : call.pcache with
  | none => rfl
  | some pcache =>
      have hcovers := hbare pcache hpcache
      rw [Option.filter_some, decide_eq_false hcovers]
      rfl

/-- Bytes of the overlay, appended. -/
theorem Going.take {bytes : List Octet} (hgoing : call.Going off size reading)
    (hdiff : diff ≤ reading.size)
    (hbytes : bytes = Images.read call.overlay reading.off diff) :
    call.Going off size (reading.take diff bytes) where
  coherent := hgoing.coherent
  aligned := hgoing.aligned
  off_le := Nat.le_trans hgoing.off_le (Nat.le_add_right _ _)
  end_eq := by
    have hend := hgoing.end_eq
    simp only [BdReading.take]
    omega
  data_eq := by
    have hle := hgoing.off_le
    have hsplit : reading.off + diff - off = reading.off - off + diff := by omega
    have hback : off + (reading.off - off) = reading.off := by omega
    simp only [BdReading.take, hsplit, Images.read_add, hback, ← hbytes, hgoing.data_eq]

theorem length_copy (cache : LfsCache) (off diff : ℕ) : (cache.copy off diff).length = diff :=
  Images.length_read

/-- What a copy from the program cache gives. -/
theorem copy_pcache (hpcache : call.pcache = some pcache) (hreaches : pcache.Reaches call.block off)
    (hle : pcache.off ≤ off) (hdiff : diff ≤ pcache.size - (off - pcache.off)) :
    pcache.copy off diff = Images.read call.overlay off diff := by
  apply Images.read_eq_read_iff.mpr
  intro index hindex
  have hcovers : pcache.Covers call.block (off + index) :=
    ⟨⟨hreaches.1, by have hlt := hreaches.2; omega⟩, by omega⟩
  rw [overlay_of_covers hpcache hcovers]
  congr 1
  omega

/-- What the device gives where the program cache has no byte. -/
theorem read_bare (hbare : ∀ index < diff, call.Bare (off + index)) :
    Images.read (call.storage.bytes call.block) off diff = Images.read call.overlay off diff := by
  apply Images.read_eq_read_iff.mpr
  intro index hindex
  exact (overlay_of_bare (hbare index hindex)).symm

/-- What a copy from the read cache gives there. -/
theorem copy_rcache (hblock : IsBlock call.block)
    (hcoherent : rcache.Mirrors call.storage call.capacity)
    (hreaches : rcache.Reaches call.block off) (hle : rcache.off ≤ off)
    (hdiff : diff ≤ rcache.size - (off - rcache.off))
    (hbare : ∀ index < diff, call.Bare (off + index)) :
    rcache.copy off diff = Images.read call.overlay off diff := by
  rw [← read_bare hbare]
  apply Images.read_eq_read_iff.mpr
  intro index hindex
  have hlt := hreaches.2
  have hbyte := hcoherent.bytes_eq (hreaches.1 ▸ hblock) (off - rcache.off + index) (by omega)
  have hplace : rcache.off + (off - rcache.off + index) = off + index := by omega
  rw [hbyte, hplace, hreaches.1]

theorem wrappingSub_eq {a b : ℕ} (hle : b ≤ a) (hlt : a < 2 ^ 64) : wrappingSub a b = a - b := by
  have hshift : a + 2 ^ 64 - b = a - b + 2 ^ 64 := Nat.sub_add_comm hle
  rw [wrappingSub, hshift, Nat.add_mod_right]
  exact Nat.mod_eq_of_lt (Nat.lt_of_le_of_lt (Nat.sub_le a b) hlt)

/-- A load ends behind `off`. -/
theorem aim_reaches (rcache : LfsCache) (hread : 0 < call.cfg.readSize)
    (hcapacity : call.cfg.readSize ≤ call.capacity)
    (hword : call.cfg.blockSize < 2 ^ 32) (hoff : off < call.cfg.blockSize)
    (hhint : off < call.hinted off) :
    off < (call.aim rcache off).off + (call.aim rcache off).size := by
  have hle := lfsAligndown_le off call.cfg.readSize
  have hlt := lt_lfsAligndown_add (a := off) hread
  have hmin : off < min (call.hinted off) call.cfg.blockSize := lt_min hhint hoff
  have hsmall : min (call.hinted off) call.cfg.blockSize < 2 ^ 64 :=
    Nat.lt_of_le_of_lt (min_le_right _ _) (Nat.lt_trans hword (by norm_num))
  have hdiff := wrappingSub_eq (Nat.le_trans hle (Nat.le_of_lt hmin)) hsmall
  simp only [aim, hdiff]
  generalize min (call.hinted off) call.cfg.blockSize = stop at hmin
  generalize lfsAligndown off call.cfg.readSize = start at hle hlt ⊢
  omega

/-- Bytes to go, and whether the read cache has to be loaded first. -/
def rank (call : BdRead) (reading : BdReading) : ℕ :=
  2 * reading.size + if reading.rcache.Covers call.block reading.off then 0 else 1

theorem rank_le (call : BdRead) (reading : BdReading) :
    call.rank reading ≤ 2 * reading.size + 1 := by
  rw [rank]
  split <;> omega

/-- What the caller gets. -/
structure Delivers (call : BdRead) (off size : ℕ) (result : BdReadResult) : Prop where
  coherent : result.2.Mirrors call.storage call.capacity
  aligned : call.cfg.readSize ∣ result.2.off
  bytes : ∀ data, result.1 = .ok data → data = Images.read call.overlay off size

/-- A turn goes on with fewer bytes to go or with the cache loaded, or it delivers. -/
def Advances (call : BdRead) (off size : ℕ) (reading : BdReading) :
    BdReading ⊕ BdReadResult → Prop
  | .inl next => call.Going off size next ∧ call.rank next < call.rank reading
  | .inr result => call.Delivers off size result

theorem Going.advances {bytes : List Octet} {clock : ℕ} (hgoing : call.Going off size reading)
    (hpos : 0 < diff) (hdiff : diff ≤ reading.size)
    (hbytes : bytes = Images.read call.overlay reading.off diff) :
    call.Advances off size reading (.inl { reading.take diff bytes with clock := clock }) := by
  have htake := hgoing.take hdiff hbytes
  refine ⟨⟨htake.coherent, htake.aligned, htake.off_le, htake.end_eq, htake.data_eq⟩, ?_⟩
  have hle := call.rank_le { reading.take diff bytes with clock := clock }
  have hsize : ({ reading.take diff bytes with clock := clock } : BdReading).size =
      reading.size - diff := rfl
  have hge : 2 * reading.size ≤ call.rank reading := Nat.le_add_right _ _
  omega

theorem Going.delivers_error (hgoing : call.Going off size reading) (e : Error) :
    call.Delivers off size (.error e, reading.rcache) :=
  ⟨hgoing.coherent, hgoing.aligned, fun _ hdata => nomatch hdata⟩

theorem advances_bypass (hgoing : call.Going off size reading) (hpos : 0 < diff)
    (hdiff : diff ≤ reading.size) (hbare : ∀ index < diff, call.Bare (reading.off + index)) :
    call.Advances off size reading (call.bypass reading diff) := by
  rw [bypass]
  cases call.storage.fails reading.clock with
  | some failure => exact hgoing.delivers_error failure.1
  | none => exact hgoing.advances hpos hdiff (read_bare hbare)

/-- What is loaded is the device's. -/
theorem load_mirrors (call : BdRead) (rcache : LfsCache) (off : ℕ) :
    (call.load rcache off).Mirrors call.storage call.capacity where
  size_le := fun _ => min_le_right _ _
  bytes_eq := by
    intro _ index hindex
    have hread : (Images.read (call.storage.bytes call.block) (call.aim rcache off).off
        (call.aim rcache off).size)[index]? =
          some (call.storage.bytes call.block ((call.aim rcache off).off + index)) :=
      Images.getElem?_read hindex
    simp only [load, Images.write, Nat.zero_le, if_true, Nat.sub_zero, hread, Option.getD_some]
    rfl

theorem advances_refill (hproper : call.Proper off size) (hhint : call.HintAhead off size)
    (hgoing : call.Going off size reading)
    (hsome : 0 < reading.size) (hnot : ¬reading.rcache.Covers call.block reading.off) :
    call.Advances off size reading (call.refill reading) := by
  have hend := hgoing.end_eq
  have hinside := hproper.inside
  have haligned : call.cfg.readSize ∣ (call.aim reading.rcache reading.off).off :=
    dvd_lfsAligndown _ _
  rw [refill]
  cases call.storage.fails reading.clock with
  | some failure =>
      -- the cache is marked as empty
      refine ⟨⟨fun hblock => absurd rfl hblock.1, fun hblock => absurd rfl hblock.1⟩, haligned, ?_⟩
      exact fun _ hdata => nomatch hdata
  | none =>
      have hreaches : reading.off < (call.load reading.rcache reading.off).off +
          (call.load reading.rcache reading.off).size := by
        apply aim_reaches reading.rcache hproper.read_pos hproper.read_le hproper.block_word
          (by omega)
        exact hhint _ hgoing.off_le (by omega)
      have hcovers : (call.load reading.rcache reading.off).Covers call.block reading.off :=
        ⟨⟨rfl, hreaches⟩, lfsAligndown_le _ _⟩
      have hmirrors := call.load_mirrors reading.rcache reading.off
      refine ⟨⟨hmirrors, haligned, hgoing.off_le, hend, hgoing.data_eq⟩, ?_⟩
      simp only [rank, if_pos hcovers, if_neg hnot]
      omega

/-- The device is asked for whole read units that no cache has, or for the read cache. -/
theorem advances_deviceTurn (hproper : call.Proper off size)
    (hhint : call.HintAhead off size) (hgoing : call.Going off size reading) (hpos : 0 < diff)
    (hdiff : diff ≤ reading.size)
    (hbare : ∀ index < diff, call.Bare (reading.off + index))
    (hunit : call.cfg.readSize ∣ reading.off → diff = reading.size ∨ call.cfg.readSize ∣ diff)
    (hnot : ¬reading.rcache.Covers call.block reading.off) :
    call.Advances off size reading (call.deviceTurn reading diff) := by
  rw [deviceTurn]
  split
  · rename_i hbypass
    obtain ⟨-, haligned, hunits⟩ := hbypass
    have hread : call.cfg.readSize ≤ diff := by
      obtain hall | hdvd := hunit haligned
      · omega
      · exact Nat.le_of_dvd hpos hdvd
    have hle := lfsAligndown_le diff call.cfg.readSize
    apply advances_bypass hgoing (lfsAligndown_pos hread hproper.read_pos) (by omega)
    exact fun index hindex => hbare index (by omega)
  · exact advances_refill hproper hhint hgoing (by omega) hnot

theorem advances_rcacheTurn (hproper : call.Proper off size)
    (hhint : call.HintAhead off size) (hgoing : call.Going off size reading) (hpos : 0 < diff)
    (hdiff : diff ≤ reading.size)
    (hbare : ∀ index < diff, call.Bare (reading.off + index))
    (hunit : call.cfg.readSize ∣ reading.off → diff = reading.size ∨ call.cfg.readSize ∣ diff) :
    call.Advances off size reading (call.rcacheTurn reading diff) := by
  rw [rcacheTurn]
  split
  · rename_i hreaches
    have hlt := hreaches.2
    split
    · rename_i hle
      have hcopy := copy_rcache hproper.block hgoing.coherent hreaches hle
        (min_le_right diff _) fun index hindex => hbare index (by omega)
      exact hgoing.advances (by omega) (by omega) hcopy
    · rename_i hle
      apply advances_deviceTurn hproper hhint hgoing (by omega) (by omega)
      · exact fun index hindex => hbare index (by omega)
      · intro haligned
        have hgap : call.cfg.readSize ∣ reading.rcache.off - reading.off :=
          Nat.dvd_sub hgoing.aligned haligned
        obtain hmin | hmin := min_choice diff (reading.rcache.off - reading.off)
        · rw [hmin]
          exact hunit haligned
        · rw [hmin]
          exact Or.inr hgap
      · exact fun hcovers => hle hcovers.2
  · rename_i hreaches
    apply advances_deviceTurn hproper hhint hgoing hpos hdiff hbare hunit
    exact fun hcovers => hreaches hcovers.1

theorem advances_turn (hproper : call.Proper off size) (hhint : call.HintAhead off size)
    (hgoing : call.Going off size reading) :
    call.Advances off size reading (call.turn reading) := by
  rw [turn]
  split
  · rename_i hzero
    have hend := hgoing.end_eq
    refine ⟨hgoing.coherent, hgoing.aligned, fun data hdata => ?_⟩
    have hlength : reading.off - off = size := by omega
    rw [← Except.ok.inj hdata, hgoing.data_eq, hlength]
  · rename_i hsome
    cases hfilter : call.pcache.filter
        fun pcache => decide (pcache.Reaches call.block reading.off) with
    | none =>
        have hbare : ∀ index, call.Bare (reading.off + index) := by
          intro index pcache hpcache hcovers
          have hreaches : pcache.Reaches call.block reading.off :=
            ⟨hcovers.1.1, by have hlt := hcovers.1.2; omega⟩
          rw [hpcache, Option.filter_some, decide_eq_true hreaches] at hfilter
          cases hfilter
        exact advances_rcacheTurn hproper hhint hgoing (by omega) (le_refl _)
          (fun index _ => hbare index) fun _ => Or.inl rfl
    | some pcache =>
        obtain ⟨hpcache, hreaches⟩ := Option.filter_eq_some_iff.mp hfilter
        have hreaches := of_decide_eq_true hreaches
        have hlt := hreaches.2
        simp only
        split
        · rename_i hle
          have hcopy := copy_pcache hpcache hreaches hle (min_le_right reading.size _)
          exact hgoing.advances (by omega) (by omega) hcopy
        · rename_i hle
          apply advances_rcacheTurn hproper hhint hgoing (by omega) (by omega)
          · intro index hindex pcache' hpcache' hcovers
            obtain rfl : pcache = pcache' := Option.some.inj (hpcache.symm.trans hpcache')
            have hin := hcovers.2
            omega
          · intro haligned
            have hgap : call.cfg.readSize ∣ pcache.off - reading.off :=
              Nat.dvd_sub (hproper.pcache_aligned pcache hpcache) haligned
            obtain hmin | hmin := min_choice reading.size (pcache.off - reading.off)
            · exact Or.inl hmin
            · rw [hmin]
              exact Or.inr hgap

/-! ## Whole reads -/

/-- A read ends, and delivers. -/
theorem lfsBdRead_delivers (hproper : call.Proper off size) (hhint : call.HintAhead off size)
    (hmirrors : rcache.Mirrors call.storage call.capacity)
    (haligned : call.cfg.readSize ∣ rcache.off) :
    ∃ fuel result, call.lfsBdRead rcache off size fuel = some result ∧
      call.Delivers off size result := by
  have hstart : call.Going off size { rcache := rcache, off := off, size := size } := by
    refine ⟨hmirrors, haligned, le_refl _, rfl, ?_⟩
    rw [Nat.sub_self]
    rfl
  have hturn : ∀ reading next, call.Going off size reading → call.turn reading = .inl next →
      call.Going off size next ∧ call.rank next < call.rank reading := by
    intro reading next hgoing hnext
    have hadvances := advances_turn hproper hhint hgoing
    rw [hnext] at hadvances
    exact hadvances
  have hhalts : ∀ reading result, call.Going off size reading → call.turn reading = .inr result →
      call.Delivers off size result := by
    intro reading result hgoing hresult
    have hadvances := advances_turn hproper hhint hgoing
    rw [hresult] at hadvances
    exact hadvances
  by_cases hcorrupt : call.cfg.blockSize < off + size ∨
      call.blockCount ≠ 0 ∧ call.blockCount ≤ call.block.toNat
  · exact ⟨0, _, if_pos hcorrupt, hstart.delivers_error .corrupt⟩
  · obtain ⟨fuel, result, hrun⟩ := Machines.run_ends wellFounded_lt call.rank hturn hstart
    refine ⟨fuel, result, (if_neg hcorrupt).trans hrun, ?_⟩
    exact Machines.run_keeps (fun reading next hgoing hnext => (hturn reading next hgoing hnext).1)
      hhalts hstart hrun

end BdRead

/-! ## A read cache that does not start at a read unit -/

/-- Sixteen bytes of an erased block, in one read unit. -/
def unitRead : BdRead where
  cfg := defaultConfig
  blockCount := 128
  capacity := 64
  storage := { bytes := fun _ _ => 0xff, fails := fun _ => none }
  pcache := none
  hint := 16
  block := 0

/-- Four bytes from `off` on. -/
def shortCache (off : ℕ) : LfsCache where
  block := 0
  off := off
  size := 4
  buffer := fun _ => 0xff

theorem unitRead_proper : unitRead.Proper 0 16 where
  read_pos := by decide
  read_le := by decide
  block_word := by decide
  inside := by decide
  block := ⟨by decide, by decide⟩
  pcache_aligned := fun _ hpcache => nomatch hpcache

theorem unitRead_hintAhead : unitRead.HintAhead 0 16 := by
  intro position _ hlt
  interval_cases position <;> decide

theorem shortCache_mirrors (off : ℕ) :
    (shortCache off).Mirrors unitRead.storage unitRead.capacity where
  size_le := by
    intro _
    change 4 ≤ 64
    norm_num
  bytes_eq := fun _ _ _ => rfl

/-- Where the cache starts at a read unit, the read delivers. -/
theorem unitRead_delivers : ∃ fuel result, unitRead.lfsBdRead (shortCache 16) 0 16 fuel =
    some result ∧ unitRead.Delivers 0 16 result :=
  BdRead.lfsBdRead_delivers unitRead_proper unitRead_hintAhead (shortCache_mirrors 16) (by decide)

/-- Where it starts between two units, the read asks the device for no byte again and
again. -/
theorem lfsBdRead_loops : ¬∀ (call : BdRead) (rcache : LfsCache) (off size : ℕ),
    call.Proper off size → 1 ≤ call.hint → rcache.Mirrors call.storage call.capacity →
      ∃ fuel result, call.lfsBdRead rcache off size fuel = some result ∧
        call.Delivers off size result := by
  intro hclaim
  have hloops : ∀ fuel clock, Machines.run unitRead.turn fuel
      { rcache := shortCache 8, off := 0, size := 16, clock := clock } = none := by
    intro fuel
    induction fuel with
    | zero => exact fun _ => rfl
    | succ fuel ih => exact fun clock => ih (clock + 1)
  obtain ⟨fuel, result, hrun, -⟩ := hclaim unitRead (shortCache 8) 0 16 unitRead_proper (by decide)
    (shortCache_mirrors 8)
  have hnone : unitRead.lfsBdRead (shortCache 8) 0 16 fuel = none := hloops fuel 0
  rw [hnone] at hrun
  cases hrun

/-- So does a hint whose sum with the offset wraps to a word that is not behind it, also
where the cache starts at a read unit. -/
theorem lfsBdRead_hint_loops : ¬∀ (call : BdRead) (rcache : LfsCache) (off size : ℕ),
    call.Proper off size → 1 ≤ call.hint → rcache.Mirrors call.storage call.capacity →
      call.cfg.readSize ∣ rcache.off →
        ∃ fuel result, call.lfsBdRead rcache off size fuel = some result ∧
          call.Delivers off size result := by
  intro hclaim
  have hproper : BdRead.Proper { unitRead with hint := 2 ^ 32 } 0 16 :=
    { unitRead_proper with }
  have hloops : ∀ fuel clock (rcache : LfsCache),
      ¬rcache.Reaches 0 0 → Machines.run (BdRead.turn { unitRead with hint := 2 ^ 32 }) fuel
        { rcache := rcache, off := 0, size := 16, clock := clock } = none := by
    intro fuel
    induction fuel with
    | zero => exact fun _ _ _ => rfl
    | succ fuel ih =>
        intro clock rcache hreaches
        have hturn : BdRead.turn { unitRead with hint := 2 ^ 32 }
            { rcache := rcache, off := 0, size := 16, clock := clock } =
              .inl { rcache := BdRead.load { unitRead with hint := 2 ^ 32 } rcache 0
                     off := 0, size := 16, clock := clock + 1 } := if_neg hreaches
        rw [Machines.run, hturn]
        exact ih (clock + 1) _ fun hreaches => Nat.lt_irrefl 0 hreaches.2
  have hmirrors : ({ shortCache 0 with size := 0 } : LfsCache).Mirrors unitRead.storage
      unitRead.capacity :=
        ⟨fun _ => Nat.zero_le 64, fun _ _ hindex => absurd hindex (Nat.not_lt_zero _)⟩
  obtain ⟨fuel, result, hrun, -⟩ := hclaim { unitRead with hint := 2 ^ 32 }
    { shortCache 0 with size := 0 } 0 16 hproper (by decide) hmirrors (by decide)
  have hnone : BdRead.lfsBdRead { unitRead with hint := 2 ^ 32 } { shortCache 0 with size := 0 } 0
      16 fuel = none := hloops fuel 0 _ (by decide)
  rw [hnone] at hrun
  cases hrun

end Littlefs.Disk
