import Littlefs.Disk.Getting
import Littlefs.Init

/-!
# Reading inline data

`lfs_dir_getread` reads the data of an inline struct tag through the cache of a
file.  A cache that does not hold the next byte is loaded again, from an aligned
offset on.  The loop is followed from window to window: the first is the cache as
the call finds it or as it loads it, each later one a full cache further on.
-/

namespace Littlefs.Disk

open Words

/-- `LFS_BLOCK_INLINE`. -/
def inlineWord : Word := 0xfffffffe

/-- `LfsCache`.  The length of its buffer is `cacheSize`. -/
structure LfsCache where
  block : Word
  off : ℕ
  size : ℕ
  buffer : ℕ → Octet

/-- `lfs_alignup`, whose sums wrap. -/
def alignupWord (a alignment : ℕ) : ℕ :=
  lfsAligndown ((a + alignment + (2 ^ 32 - 1)) % 2 ^ 32) alignment

/-- The inline bytes of the cache end behind `off`. -/
def LfsCache.Ahead (cache : LfsCache) (off : ℕ) : Prop :=
  cache.block = inlineWord ∧ off < cache.off + cache.size

instance (cache : LfsCache) (off : ℕ) : Decidable (cache.Ahead off) :=
  inferInstanceAs (Decidable (_ ∧ _))

/-- The byte at `off` is among the inline bytes of the cache. -/
def LfsCache.Holds (cache : LfsCache) (off : ℕ) : Prop := cache.Ahead off ∧ cache.off ≤ off

instance (cache : LfsCache) (off : ℕ) : Decidable (cache.Holds off) :=
  inferInstanceAs (Decidable (_ ∧ _))

/-- `copy_from_slice` of the buffer's bytes for `off` and behind. -/
def LfsCache.copy (cache : LfsCache) (off diff : ℕ) : List Octet :=
  Images.read cache.buffer (off - cache.off) diff

/-- How much of its cache a load at `off` fills. -/
def fillSize (cfg : Config) (hint off : ℕ) : ℕ :=
  min (alignupWord ((off + hint) % 2 ^ 32) cfg.readSize) cfg.cacheSize

/-- The fields of `rcache` before a load.  Offsets inside a block are words. -/
def LfsCache.aim (cfg : Config) (hint off : ℕ) (cache : LfsCache) : LfsCache :=
  { cache with
    block := inlineWord
    off := lfsAligndown off cfg.readSize
    size := fillSize cfg hint off }

/-- What a turn of the loop of `lfs_dir_getread` does. -/
inductive ReadTurn
  | copied (bytes : List Octet)
  | loaded (rcache : LfsCache)
  | failed (fault : Fault) (rcache : LfsCache)

/-- The turn behind the check of `pcache`.  The bytes copied are bounded by the
buffer, not by the part of it that is filled. -/
def Store.rcacheTurn (store : Store) (dir : LfsMdir) (hint : ℕ) (gmask gtag : Word)
    (rcache : LfsCache) (off diff : ℕ) : ReadTurn :=
  if rcache.Holds off then
    .copied (rcache.copy off (min diff (store.cfg.cacheSize - (off - rcache.off))))
  else
    let rcache := rcache.aim store.cfg hint off
    match lfsDirGetslice store dir gmask gtag rcache.off rcache.size with
    | .error fault => .failed fault rcache
    | .ok (_, bytes) => .loaded { rcache with buffer := Images.write rcache.buffer 0 bytes }

def Store.readTurn (store : Store) (dir : LfsMdir) (pcache : Option LfsCache) (hint : ℕ)
    (gmask gtag : Word) (rcache : LfsCache) (off size : ℕ) : ReadTurn :=
  match pcache.filter fun pcache => decide (pcache.Ahead off) with
  | some pcache =>
      if pcache.off ≤ off then
        .copied (pcache.copy off (min size (pcache.size - (off - pcache.off))))
      else
        store.rcacheTurn dir hint gmask gtag rcache off (min size (pcache.off - off))
  | none => store.rcacheTurn dir hint gmask gtag rcache off size

/-- The loop of `lfs_dir_getread`; `none` says that it has not come to its end. -/
def Store.getreadGo (store : Store) (dir : LfsMdir) (pcache : Option LfsCache) (hint : ℕ)
    (gmask gtag : Word) :
    ℕ → LfsCache → ℕ → ℕ → Option (Except Fault (List Octet) × LfsCache)
  | 0, _, _, _ => none
  | fuel + 1, rcache, off, size =>
      if size = 0 then
        some (.ok [], rcache)
      else
        match store.readTurn dir pcache hint gmask gtag rcache off size with
        | .copied bytes =>
            (Store.getreadGo store dir pcache hint gmask gtag fuel rcache (off + bytes.length)
              (size - bytes.length)).map fun res => (res.1.map (bytes ++ ·), res.2)
        | .loaded rcache => Store.getreadGo store dir pcache hint gmask gtag fuel rcache off size
        | .failed fault rcache => some (.error fault, rcache)

/-- `lfs_dir_getread`, with the buffer's bytes as its answer. -/
def lfsDirGetread (store : Store) (dir : LfsMdir) (pcache : Option LfsCache) (rcache : LfsCache)
    (hint : ℕ) (gmask gtag : Word) (off size fuel : ℕ) :
    Option (Except Fault (List Octet) × LfsCache) :=
  if store.cfg.blockSize < off + size then
    some (.error (.error .corrupt), rcache)
  else
    store.getreadGo dir pcache hint gmask gtag fuel rcache off size

/-! ## The place of a tag -/

/-- The loop of `lfs_dir_getslice` up to the read of the data: where the tag is, the
tag, and how far its id has moved. -/
def Store.locateGo (store : Store) (block gmask gtag : Word) :
    ℕ → ℕ → Word → Word → Except Fault (ℕ × Word × Word)
  | 0, _, _, _ => .error (.error .noEntry)
  | fuel + 1, off, tag, gdiff =>
      if 4 + (tagOf tag).dsize ≤ off then
        let off := off - (tagOf tag).dsize
        match store.read block off 4 with
        | none => .error (.error .corrupt)
        | some buffer =>
            let ntag := (store.order.be (store.order.ofBytes buffer) ^^^ tag) &&& 0x7fffffff
            let spliced := (tagOf gmask).id ≠ 0 ∧ (tagOf tag).type1 = tySplice ∧
              (tagOf tag).id ≤ (tagOf (gtag - gdiff)).id
            if spliced ∧ tag = mktag tyCreate 0 0 ||| (mktag 0 0x3ff 0 &&& (gtag - gdiff)) then
              .error (.error .noEntry)
            else
              let gdiff := if spliced then gdiff + mkdiff (tagOf tag).splice else gdiff
              if gmask &&& tag = gmask &&& (gtag - gdiff) then
                if (tagOf tag).isdelete then
                  .error (.error .noEntry)
                else
                  .ok (off, tag, gdiff)
              else
                Store.locateGo store block gmask gtag fuel off ntag gdiff
      else
        .error (.error .noEntry)

/-- `lfs_dir_getslice` up to the read of the data. -/
def lfsDirLocate (store : Store) (dir : LfsMdir) (gmask gtag : Word) :
    Except Fault (ℕ × Word × Word) :=
  let moved := store.gdisk.hasmovehere dir.pair = true ∧ (tagOf gmask).id ≠ 0
  if moved ∧ (tagOf store.gdisk.tag).id = (tagOf gtag).id then
    .error (.error .noEntry)
  else
    store.locateGo dir.pair.1 gmask gtag (dir.off + 1) dir.off dir.etag
      (if moved ∧ (tagOf store.gdisk.tag).id < (tagOf gtag).id then 0 - mktag 0 1 0 else 0)

/-- The read of the data: its bytes and the zeros behind them. -/
def Store.sliceAt (store : Store) (block : Word) (goff size : ℕ) (found : ℕ × Word × Word) :
    Except Fault (Word × List Octet) :=
  let diff := min (tagOf found.2.1).size size
  match store.read block (found.1 + 4 + goff) diff with
  | none => .error (.error .corrupt)
  | some buffer => .ok (found.2.1 + found.2.2, buffer ++ List.replicate (size - diff) 0)

variable {store : Store} {dir : LfsMdir} {gmask gtag block : Word} {goff hint off size place : ℕ}
  {data : List Octet} {rcache : LfsCache}

theorem Store.getsliceGo_locate (fuel off : ℕ) (tag gdiff : Word) :
    store.getsliceGo block gmask gtag goff size fuel off tag gdiff =
      (store.locateGo block gmask gtag fuel off tag gdiff).bind
        (store.sliceAt block goff size) := by
  induction fuel generalizing off tag gdiff with
  | zero => rfl
  | succ fuel ih =>
      rw [Store.getsliceGo, Store.locateGo]
      by_cases hroom : 4 + (tagOf tag).dsize ≤ off
      · rw [if_pos hroom, if_pos hroom]
        cases hread : store.read block (off - (tagOf tag).dsize) 4 with
        | none =>
            simp only [hread]
            rfl
        | some buffer =>
            simp only [hread, ih]
            split
            · rfl
            · -- with and without a splice of an earlier id
              split
              all_goals
                split
                · split
                  · rfl
                  · rfl
                · rfl
      · rw [if_neg hroom, if_neg hroom]
        rfl

theorem lfsDirGetslice_locate (store : Store) (dir : LfsMdir) (gmask gtag : Word)
    (goff size : ℕ) :
    lfsDirGetslice store dir gmask gtag goff size =
      (lfsDirLocate store dir gmask gtag).bind (store.sliceAt dir.pair.1 goff size) := by
  rw [lfsDirGetslice, lfsDirLocate]
  split
  · rfl
  · exact Store.getsliceGo_locate _ _ _ _

/-- A read that is answered is one in a block that can be read. -/
theorem Store.readable_of_read {start count : ℕ} {bytes : List Octet}
    (hread : store.read block start count = some bytes) : store.Readable block := by
  rw [Store.read] at hread
  split at hread
  · cases hread
  · rename_i hinside
    rw [Store.Readable]
    omega

/-- A tag that is found lies in front of the end of the directory. -/
theorem Store.locateGo_ok {fuel off : ℕ} {tag gdiff : Word} {found : ℕ × Word × Word}
    (hfound : store.locateGo block gmask gtag fuel off tag gdiff = .ok found) :
    store.Readable block ∧ found.1 + 4 + (tagOf found.2.1).size ≤ off := by
  induction fuel generalizing off tag gdiff with
  | zero => cases hfound
  | succ fuel ih =>
      rw [Store.locateGo] at hfound
      by_cases hroom : 4 + (tagOf tag).dsize ≤ off
      · rw [if_pos hroom] at hfound
        cases hread : store.read block (off - (tagOf tag).dsize) 4 with
        | none =>
            simp only [hread] at hfound
            cases hfound
        | some buffer =>
            simp only [hread] at hfound
            split at hfound
            · cases hfound
            · split at hfound
              all_goals
                split at hfound
                · split at hfound
                  · cases hfound
                  · rename_i hdelete
                    have hdata := size_eq_of_not_isdelete (eq_false_of_ne_true hdelete)
                    have hdsize := four_le_dsize (tagOf tag)
                    cases hfound
                    constructor
                    · exact Store.readable_of_read hread
                    · simp only
                      omega
                · obtain ⟨hreadable, hle⟩ := ih hfound
                  exact ⟨hreadable, le_trans hle (Nat.sub_le _ _)⟩
      · rw [if_neg hroom] at hfound
        cases hfound

/-- An inline struct tag: a lookup finds it, and its data follow it. -/
structure InlineTag (store : Store) (dir : LfsMdir) (gmask gtag : Word) (place : ℕ)
    (data : List Octet) : Prop where
  dir_inside : dir.off ≤ store.cfg.blockSize
  found : ∃ tag gdiff, lfsDirLocate store dir gmask gtag = .ok (place, tag, gdiff) ∧
    data = Images.read (store.bytes dir.pair.1) (place + 4) (tagOf tag).size

/-- A read of `size` bytes from `goff` on, cut to the tag's size, stays in the
block.  The tag's size is taken whole, however large `goff` is. -/
def Fits (cfg : Config) (place : ℕ) (data : List Octet) (goff size : ℕ) : Prop :=
  place + 4 + goff + min data.length size ≤ cfg.blockSize

instance (cfg : Config) (place : ℕ) (data : List Octet) (goff size : ℕ) :
    Decidable (Fits cfg place data goff size) := inferInstanceAs (Decidable (_ ≤ _))

theorem lfsDirLocate_ok {found : ℕ × Word × Word}
    (hfound : lfsDirLocate store dir gmask gtag = .ok found) :
    store.Readable dir.pair.1 ∧ found.1 + 4 + (tagOf found.2.1).size ≤ dir.off := by
  rw [lfsDirLocate] at hfound
  split at hfound
  · cases hfound
  · exact Store.locateGo_ok hfound

theorem InlineTag.inside (hinline : InlineTag store dir gmask gtag place data) :
    place + 4 + data.length ≤ store.cfg.blockSize := by
  obtain ⟨tag, gdiff, hfound, hdata⟩ := hinline.found
  have hend := (lfsDirLocate_ok hfound).2
  have hdir := hinline.dir_inside
  have hlength := congrArg List.length hdata
  rw [Images.length_read] at hlength
  simp only at hend
  omega

/-- The data, byte by byte. -/
def dataAt (store : Store) (dir : LfsMdir) (place index : ℕ) : Octet :=
  store.bytes dir.pair.1 (place + 4 + index)

theorem InlineTag.getElem?_eq (hinline : InlineTag store dir gmask gtag place data) {index : ℕ}
    (hindex : index < data.length) : data[index]? = some (dataAt store dir place index) := by
  obtain ⟨tag, gdiff, hfound, hdata⟩ := hinline.found
  have hlength := congrArg List.length hdata
  rw [Images.length_read] at hlength
  rw [hdata, Images.getElem?_read (by omega), dataAt]

theorem InlineTag.slice_eq (hinline : InlineTag store dir gmask gtag place data)
    (hin : off + size ≤ data.length) :
    (data.drop off).take size = Images.read (dataAt store dir place) off size := by
  apply List.ext_getElem?
  intro index
  by_cases hindex : index < size
  · rw [List.getElem?_take_of_lt hindex, List.getElem?_drop,
      hinline.getElem?_eq (by omega), Images.getElem?_read hindex]
  · rw [List.getElem?_eq_none, List.getElem?_eq_none]
    · rw [Images.length_read]
      omega
    · rw [List.length_take]
      omega

/-- A slice is answered when it fits, and then has the data in front. -/
theorem InlineTag.getslice_eq (hinline : InlineTag store dir gmask gtag place data)
    (goff size : ℕ) :
    (Fits store.cfg place data goff size ∧
      ∃ tag, lfsDirGetslice store dir gmask gtag goff size =
          .ok (tag, Images.read (dataAt store dir place) goff (min data.length size) ++
        List.replicate (size - min data.length size) 0)) ∨
    (¬Fits store.cfg place data goff size ∧
      lfsDirGetslice store dir gmask gtag goff size = .error (.error .corrupt)) := by
  obtain ⟨tag, gdiff, hfound, hdata⟩ := hinline.found
  have hreadable := (lfsDirLocate_ok hfound).1
  have hlength : data.length = (tagOf tag).size := by rw [hdata, Images.length_read]
  rw [lfsDirGetslice_locate, hfound, Except.bind, Store.sliceAt, hlength]
  by_cases hfits : Fits store.cfg place data goff size
  · have hread : store.read dir.pair.1 (place + 4 + goff) (min (tagOf tag).size size) =
        some (Images.read (store.bytes dir.pair.1) (place + 4 + goff)
          (min (tagOf tag).size size)) := by
      apply Store.read_eq hreadable
      rw [← hlength]
      exact hfits
    have hsame : Images.read (store.bytes dir.pair.1) (place + 4 + goff)
        (min (tagOf tag).size size) =
          Images.read (dataAt store dir place) goff (min (tagOf tag).size size) := by
      apply List.map_congr_left
      intro index hindex
      rw [dataAt, Nat.add_assoc (place + 4)]
    refine Or.inl ⟨hfits, tag + gdiff, ?_⟩
    simp only [hread, hsame]
  · have hread : store.read dir.pair.1 (place + 4 + goff) (min (tagOf tag).size size) = none := by
      rw [Store.read, if_pos]
      rw [← hlength]
      exact Or.inl (not_le.mp hfits)
    refine Or.inr ⟨hfits, ?_⟩
    simp only [hread]

/-! ## The cache -/

/-- What an inline cache has loaded are bytes of the data. -/
structure LfsCache.Coherent (cfg : Config) (data : List Octet) (cache : LfsCache) : Prop where
  aligned : cache.block = inlineWord → cfg.readSize ∣ cache.off
  size_le : cache.block = inlineWord → cache.size ≤ cfg.cacheSize
  bytes : cache.block = inlineWord → ∀ index < cache.size, cache.off + index < data.length →
    data[cache.off + index]? = some (cache.buffer index)

/-- The bytes that a load of `size` bytes leaves in the cache. -/
def loadedBytes (store : Store) (dir : LfsMdir) (place : ℕ) (data : List Octet)
    (goff size : ℕ) : List Octet :=
  Images.read (dataAt store dir place) goff (min data.length size) ++
    List.replicate (size - min data.length size) 0

@[simp]
theorem length_loadedBytes : (loadedBytes store dir place data goff size).length = size := by
  rw [loadedBytes, List.length_append, Images.length_read, List.length_replicate]
  omega

/-- The cache behind a load. -/
def LfsCache.load (store : Store) (dir : LfsMdir) (place : ℕ) (data : List Octet)
    (hint off : ℕ) (cache : LfsCache) : LfsCache :=
  { cache.aim store.cfg hint off with
    buffer := Images.write cache.buffer 0
      (loadedBytes store dir place data (lfsAligndown off store.cfg.readSize)
        (fillSize store.cfg hint off)) }

theorem LfsCache.load_buffer : (rcache.load store dir place data hint off).buffer =
    Images.write rcache.buffer 0 (loadedBytes store dir place data
      (lfsAligndown off store.cfg.readSize) (fillSize store.cfg hint off)) := rfl

theorem LfsCache.load_buffer_lt {index : ℕ} (hindex : index < fillSize store.cfg hint off)
    (hin : lfsAligndown off store.cfg.readSize + index < data.length) :
    (rcache.load store dir place data hint off).buffer index =
      dataAt store dir place (lfsAligndown off store.cfg.readSize + index) := by
  have hlength : index < (loadedBytes store dir place data
      (lfsAligndown off store.cfg.readSize) (fillSize store.cfg hint off)).length := by
    rw [length_loadedBytes]
    exact hindex
  have hread : index < (Images.read (dataAt store dir place)
      (lfsAligndown off store.cfg.readSize)
        (min data.length (fillSize store.cfg hint off))).length := by
    rw [Images.length_read]
    omega
  have hwrite : Images.write rcache.buffer 0 (loadedBytes store dir place data
      (lfsAligndown off store.cfg.readSize) (fillSize store.cfg hint off)) (0 + index) =
        (loadedBytes store dir place data (lfsAligndown off store.cfg.readSize)
          (fillSize store.cfg hint off))[index] := Images.write_of_mem hlength
  rw [Nat.zero_add] at hwrite
  rw [LfsCache.load_buffer, hwrite]
  apply Option.some.inj
  rw [← List.getElem?_eq_getElem, loadedBytes, List.getElem?_append_left hread,
    Images.getElem?_read (by rw [Images.length_read] at hread; exact hread)]

theorem LfsCache.load_buffer_le {index : ℕ} (hindex : fillSize store.cfg hint off ≤ index) :
    (rcache.load store dir place data hint off).buffer index = rcache.buffer index := by
  rw [LfsCache.load_buffer]
  apply Images.write_of_le
  rw [length_loadedBytes, Nat.zero_add]
  exact hindex

theorem lfsAligndown_le (a alignment : ℕ) : lfsAligndown a alignment ≤ a := Nat.sub_le _ _

theorem dvd_lfsAligndown (a alignment : ℕ) : alignment ∣ lfsAligndown a alignment :=
  Nat.dvd_sub_mod a

theorem LfsCache.load_holds :
    (rcache.load store dir place data hint off).Holds off ↔
      off < lfsAligndown off store.cfg.readSize + fillSize store.cfg hint off := by
  have hle := lfsAligndown_le off store.cfg.readSize
  constructor
  · intro hholds
    exact hholds.1.2
  · intro hlt
    exact ⟨⟨rfl, hlt⟩, hle⟩

/-- A load leaves a coherent cache, whatever the cache was before. -/
theorem InlineTag.load_coherent (hinline : InlineTag store dir gmask gtag place data) :
    (rcache.load store dir place data hint off).Coherent store.cfg data where
  aligned _ := dvd_lfsAligndown off store.cfg.readSize
  size_le _ := min_le_right _ _
  bytes _ index hindex hin := by
    rw [LfsCache.load_buffer_lt hindex hin]
    exact hinline.getElem?_eq hin

theorem InlineTag.rcacheTurn_eq (hinline : InlineTag store dir gmask gtag place data)
    (hint : ℕ) (hmiss : ¬rcache.Holds off) (diff : ℕ) :
    (Fits store.cfg place data (lfsAligndown off store.cfg.readSize)
        (fillSize store.cfg hint off) ∧
      store.rcacheTurn dir hint gmask gtag rcache off diff =
        .loaded (rcache.load store dir place data hint off)) ∨
    (¬Fits store.cfg place data (lfsAligndown off store.cfg.readSize)
        (fillSize store.cfg hint off) ∧
      store.rcacheTurn dir hint gmask gtag rcache off diff =
        .failed (.error .corrupt) (rcache.aim store.cfg hint off)) := by
  rw [Store.rcacheTurn, if_neg hmiss]
  obtain ⟨hfits, tag, hslice⟩ | ⟨hfits, hslice⟩ :=
    hinline.getslice_eq (lfsAligndown off store.cfg.readSize) (fillSize store.cfg hint off)
  · apply Or.inl
    constructor
    · exact hfits
    · simp only [LfsCache.aim, hslice]
      rfl
  · apply Or.inr
    constructor
    · exact hfits
    · simp only [LfsCache.aim, hslice]

/-! ## Turns of the loop -/

/-- The loop comes to its end with the bytes of the data. -/
def Answers (store : Store) (dir : LfsMdir) (hint : ℕ) (gmask gtag : Word) (place : ℕ)
    (rcache : LfsCache) (off size : ℕ) : Prop :=
  ∃ fuel rcache', store.getreadGo dir none hint gmask gtag fuel rcache off size =
    some (.ok (Images.read (dataAt store dir place) off size), rcache')

theorem answers_zero : Answers store dir hint gmask gtag place rcache off 0 := ⟨1, rcache, rfl⟩

/-- A byte in the cache: as many bytes as the buffer has are copied. -/
theorem answers_held (hpos : 0 < size) (hholds : rcache.Holds off) :
    Answers store dir hint gmask gtag place rcache off size ↔
      (∀ index < min size (store.cfg.cacheSize - (off - rcache.off)),
        rcache.buffer (off - rcache.off + index) = dataAt store dir place (off + index)) ∧
      Answers store dir hint gmask gtag place rcache
        (off + min size (store.cfg.cacheSize - (off - rcache.off)))
        (size - min size (store.cfg.cacheSize - (off - rcache.off))) := by
  have hturn : store.readTurn dir none hint gmask gtag rcache off size =
      .copied (rcache.copy off (min size (store.cfg.cacheSize - (off - rcache.off)))) :=
    if_pos hholds
  have hle : min size (store.cfg.cacheSize - (off - rcache.off)) ≤ size := min_le_left _ _
  generalize min size (store.cfg.cacheSize - (off - rcache.off)) = diff at hturn hle ⊢
  have hlength : (rcache.copy off diff).length = diff := Images.length_read
  have hsplit : Images.read (dataAt store dir place) off size =
      Images.read (dataAt store dir place) off diff ++
        Images.read (dataAt store dir place) (off + diff) (size - diff) := by
    rw [← Images.read_add, Nat.add_sub_cancel' hle]
  constructor
  · rintro ⟨fuel, rcache', hrun⟩
    cases fuel with
    | zero => cases hrun
    | succ fuel =>
        rw [Store.getreadGo, if_neg (Nat.pos_iff_ne_zero.mp hpos), hturn] at hrun
        simp only [hlength] at hrun
        obtain ⟨⟨result, last⟩, hrest, hresult⟩ := Option.map_eq_some_iff.mp hrun
        cases result with
        | error fault => cases (Prod.mk.inj hresult).1
        | ok bytes =>
            have hbytes := Except.ok.inj (Prod.mk.inj hresult).1
            rw [hsplit] at hbytes
            obtain ⟨hfront, hback⟩ := List.append_inj hbytes (by rw [hlength, Images.length_read])
            rw [hback] at hrest
            exact ⟨Images.read_eq_read_iff.mp hfront, fuel, last, hrest⟩
  · rintro ⟨hsame, fuel, last, hrest⟩
    have hfront : rcache.copy off diff = Images.read (dataAt store dir place) off diff :=
      Images.read_eq_read_iff.mpr hsame
    refine ⟨fuel + 1, last, ?_⟩
    rw [Store.getreadGo, if_neg (Nat.pos_iff_ne_zero.mp hpos), hturn]
    simp only [hlength, hrest]
    rw [hsplit, ← hfront]
    rfl

/-- A byte that is not in the cache: the cache is loaded. -/
theorem answers_missed (hinline : InlineTag store dir gmask gtag place data) (hpos : 0 < size)
    (hmiss : ¬rcache.Holds off) :
    Answers store dir hint gmask gtag place rcache off size ↔
      Fits store.cfg place data (lfsAligndown off store.cfg.readSize)
        (fillSize store.cfg hint off) ∧
      Answers store dir hint gmask gtag place (rcache.load store dir place data hint off)
        off size := by
  have hnone : store.readTurn dir none hint gmask gtag rcache off size =
      store.rcacheTurn dir hint gmask gtag rcache off size := rfl
  constructor
  · rintro ⟨fuel, rcache', hrun⟩
    cases fuel with
    | zero => cases hrun
    | succ fuel =>
        rw [Store.getreadGo, if_neg (Nat.pos_iff_ne_zero.mp hpos), hnone] at hrun
        obtain ⟨hfits, hturn⟩ | ⟨hfits, hturn⟩ :=
          hinline.rcacheTurn_eq hint hmiss size
        · rw [hturn] at hrun
          exact ⟨hfits, fuel, rcache', hrun⟩
        · rw [hturn] at hrun
          cases hrun
  · rintro ⟨hfits, fuel, rcache', hrun⟩
    obtain ⟨-, hturn⟩ | ⟨hfull, -⟩ := hinline.rcacheTurn_eq hint hmiss size
    · refine ⟨fuel + 1, rcache', ?_⟩
      rw [Store.getreadGo, if_neg (Nat.pos_iff_ne_zero.mp hpos), hnone, hturn]
      exact hrun
    · exact absurd hfits hfull

/-- A load that does not reach the byte it is for is repeated for ever. -/
theorem not_answers_of_short (hinline : InlineTag store dir gmask gtag place data)
    (hpos : 0 < size) (hmiss : ¬rcache.Holds off)
    (hshort : ¬off < lfsAligndown off store.cfg.readSize + fillSize store.cfg hint off) :
    ¬Answers store dir hint gmask gtag place rcache off size := by
  rintro ⟨fuel, rcache', hrun⟩
  induction fuel generalizing rcache with
  | zero => cases hrun
  | succ fuel ih =>
      have hnone : store.readTurn dir none hint gmask gtag rcache off size =
          store.rcacheTurn dir hint gmask gtag rcache off size := rfl
      rw [Store.getreadGo, if_neg (Nat.pos_iff_ne_zero.mp hpos), hnone] at hrun
      obtain ⟨-, hturn⟩ | ⟨-, hturn⟩ := hinline.rcacheTurn_eq hint hmiss size
      · rw [hturn] at hrun
        exact ih (mt LfsCache.load_holds.mp hshort) hrun
      · rw [hturn] at hrun
        cases hrun

/-! ## Windows -/

/-- What the buffer has behind the filled part of the cache are bytes of the data, as
far as the bytes in front of `stop` are asked for. -/
def LfsCache.RestRight (cfg : Config) (data : List Octet) (cache : LfsCache) (stop : ℕ) : Prop :=
  ∀ index < stop, cache.off + cache.size ≤ index → index < cache.off + cfg.cacheSize →
    data[index]? = some (cache.buffer (index - cache.off))

/-- From a cache that holds the first byte: the bytes up to the end of its buffer, and
then those behind it. -/
theorem answers_front (hinline : InlineTag store dir gmask gtag place data)
    (hcoherent : rcache.Coherent store.cfg data) (hholds : rcache.Holds off) (hpos : 0 < size)
    (hin : off + size ≤ data.length) :
    Answers store dir hint gmask gtag place rcache off size ↔
      rcache.RestRight store.cfg data (off + size) ∧
      (rcache.off + store.cfg.cacheSize < off + size →
        Answers store dir hint gmask gtag place rcache (rcache.off + store.cfg.cacheSize)
          (off + size - (rcache.off + store.cfg.cacheSize))) := by
  have hsize := hcoherent.size_le hholds.1.1
  have hlt := hholds.1.2
  have hle := hholds.2
  have hcopied : (∀ index < min size (store.cfg.cacheSize - (off - rcache.off)),
      rcache.buffer (off - rcache.off + index) = dataAt store dir place (off + index)) ↔
        rcache.RestRight store.cfg data (off + size) := by
    constructor
    · intro hsame index hstop hfilled hbuffer
      have hbyte := hsame (index - off) (by omega)
      have hplace : off - rcache.off + (index - off) = index - rcache.off := by omega
      have hindex : off + (index - off) = index := by omega
      rw [hplace, hindex] at hbyte
      rw [hinline.getElem?_eq (by omega), hbyte]
    · intro hrest index hindex
      apply Option.some.inj
      rw [← hinline.getElem?_eq (by omega)]
      by_cases hfilled : off - rcache.off + index < rcache.size
      · have hbyte := hcoherent.bytes hholds.1.1 (off - rcache.off + index) hfilled (by omega)
        have hplace : rcache.off + (off - rcache.off + index) = off + index := by omega
        rw [← hbyte, hplace]
      · have hbyte := hrest (off + index) (by omega) (by omega) (by omega)
        have hplace : off + index - rcache.off = off - rcache.off + index := by omega
        rw [hbyte, hplace]
  rw [answers_held hpos hholds, hcopied]
  apply and_congr_right
  intro _
  by_cases hmore : rcache.off + store.cfg.cacheSize < off + size
  · have hdiff : min size (store.cfg.cacheSize - (off - rcache.off)) =
        store.cfg.cacheSize - (off - rcache.off) := by omega
    have hnext : off + (store.cfg.cacheSize - (off - rcache.off)) =
        rcache.off + store.cfg.cacheSize := by omega
    have hleft : size - (store.cfg.cacheSize - (off - rcache.off)) =
        off + size - (rcache.off + store.cfg.cacheSize) := by omega
    rw [hdiff, hnext, hleft, forall_prop_of_true hmore]
  · have hdiff : min size (store.cfg.cacheSize - (off - rcache.off)) = size := by omega
    rw [hdiff, Nat.sub_self]
    exact iff_of_true answers_zero fun habove => absurd habove hmore

/-- A buffer that was copied to its end is full of the data. -/
theorem buffer_full (hinline : InlineTag store dir gmask gtag place data)
    (hcoherent : rcache.Coherent store.cfg data) (hholds : rcache.Holds off)
    (hrest : rcache.RestRight store.cfg data (off + size))
    (hmore : rcache.off + store.cfg.cacheSize < off + size) (hin : off + size ≤ data.length)
    {index : ℕ} (hindex : index < store.cfg.cacheSize) :
    rcache.buffer index = dataAt store dir place (rcache.off + index) := by
  apply Option.some.inj
  rw [← hinline.getElem?_eq (by omega)]
  by_cases hfilled : index < rcache.size
  · rw [hcoherent.bytes hholds.1.1 index hfilled (by omega)]
  · have hbyte := hrest (rcache.off + index) (by omega) (by omega) (by omega)
    rw [hbyte, Nat.add_sub_cancel_left]

/-- A window behind the first.  It is loaded, and where the load does not reach, the
buffer still has the window in front of it. -/
structure LaterWindow (cfg : Config) (place : ℕ) (data : List Octet) (hint stop start : ℕ) :
    Prop where
  fits : Fits cfg place data start (fillSize cfg hint start)
  fills : 0 < fillSize cfg hint start
  rest : ∀ index < stop, start + fillSize cfg hint start ≤ index →
    index < start + cfg.cacheSize → data[index]? = data[index - cfg.cacheSize]?

variable {start : ℕ}

theorem restRight_load (hint : ℕ) (hinline : InlineTag store dir gmask gtag place data)
    (hstart : lfsAligndown (start + store.cfg.cacheSize) store.cfg.readSize =
      start + store.cfg.cacheSize)
    (hfull : ∀ index < store.cfg.cacheSize,
      rcache.buffer index = dataAt store dir place (start + index))
    {stop : ℕ} (hstop : stop ≤ data.length) :
    (rcache.load store dir place data hint (start + store.cfg.cacheSize)).RestRight
        store.cfg data stop ↔
      ∀ index < stop, start + store.cfg.cacheSize +
          fillSize store.cfg hint (start + store.cfg.cacheSize) ≤ index →
        index < start + store.cfg.cacheSize + store.cfg.cacheSize →
        data[index]? = data[index - store.cfg.cacheSize]? := by
  have hoff : (rcache.load store dir place data hint (start + store.cfg.cacheSize)).off =
      start + store.cfg.cacheSize := hstart
  have hsize : (rcache.load store dir place data hint (start + store.cfg.cacheSize)).size =
      fillSize store.cfg hint (start + store.cfg.cacheSize) := rfl
  rw [LfsCache.RestRight, hoff, hsize]
  apply forall_congr'
  intro index
  apply forall_congr'
  intro hindex
  apply forall_congr'
  intro hfilled
  apply forall_congr'
  intro hbuffer
  have hback : start + (index - (start + store.cfg.cacheSize)) =
      index - store.cfg.cacheSize := by omega
  have hbehind := hinline.getElem?_eq (show index - store.cfg.cacheSize < data.length by omega)
  rw [LfsCache.load_buffer_le (by omega), hfull _ (by omega), hback, hbehind]

/-- From a full buffer on, every later window counts. -/
theorem answers_later (haccepted : store.cfg.Accepted)
    (hinline : InlineTag store dir gmask gtag place data)
    (hmiss : ¬rcache.Holds (start + store.cfg.cacheSize))
    (hstart : store.cfg.readSize ∣ start)
    (hfull : ∀ index < store.cfg.cacheSize,
      rcache.buffer index = dataAt store dir place (start + index))
    (hin : start + store.cfg.cacheSize + size ≤ data.length) :
    Answers store dir hint gmask gtag place rcache (start + store.cfg.cacheSize) size ↔
      ∀ k, 1 ≤ k → start + k * store.cfg.cacheSize < start + store.cfg.cacheSize + size →
        LaterWindow store.cfg place data hint (start + store.cfg.cacheSize + size)
          (start + k * store.cfg.cacheSize) := by
  induction size using Nat.strong_induction_on generalizing rcache start with
  | h size ih =>
      have hcache : 0 < store.cfg.cacheSize := Nat.pos_of_ne_zero haccepted.cache_ne
      by_cases hzero : size = 0
      · subst hzero
        apply iff_of_true answers_zero
        intro k hk hlt
        have hmul := Nat.mul_le_mul_right store.cfg.cacheSize hk
        omega
      have hpos : 0 < size := Nat.pos_of_ne_zero hzero
      have hdvd : store.cfg.readSize ∣ start + store.cfg.cacheSize :=
        dvd_add hstart haccepted.read_dvd
      have haligned : lfsAligndown (start + store.cfg.cacheSize) store.cfg.readSize =
          start + store.cfg.cacheSize := by
        rw [lfsAligndown, Nat.mod_eq_zero_of_dvd hdvd, Nat.sub_zero]
      have hcoherent : (rcache.load store dir place data hint
          (start + store.cfg.cacheSize)).Coherent store.cfg data := hinline.load_coherent
      have hoff : (rcache.load store dir place data hint (start + store.cfg.cacheSize)).off =
          start + store.cfg.cacheSize := haligned
      rw [answers_missed hinline hpos hmiss, haligned]
      by_cases hfill : 0 < fillSize store.cfg hint (start + store.cfg.cacheSize)
      · have hholds : (rcache.load store dir place data hint
            (start + store.cfg.cacheSize)).Holds (start + store.cfg.cacheSize) := by
          rw [LfsCache.load_holds, haligned]
          omega
        have hsize : (rcache.load store dir place data hint (start + store.cfg.cacheSize)).size ≤
            store.cfg.cacheSize := hcoherent.size_le rfl
        have hpassed : ¬(rcache.load store dir place data hint
            (start + store.cfg.cacheSize)).Holds
              (start + store.cfg.cacheSize + store.cfg.cacheSize) := by
          intro hheld
          have hlt := hheld.1.2
          omega
        have hleft : start + store.cfg.cacheSize + size -
            (start + store.cfg.cacheSize + store.cfg.cacheSize) = size - store.cfg.cacheSize := by
          omega
        have hrest := restRight_load hint hinline haligned hfull hin
        rw [answers_front hinline hcoherent hholds hpos hin, hoff, hleft]
        -- the windows behind this one, by induction
        have hbehind (hright : (rcache.load store dir place data hint
            (start + store.cfg.cacheSize)).RestRight store.cfg data
              (start + store.cfg.cacheSize + size))
            (hmore : start + store.cfg.cacheSize + store.cfg.cacheSize <
              start + store.cfg.cacheSize + size) :=
          ih (size - store.cfg.cacheSize) (by omega) hpassed hdvd
            (fun index hindex => by
              have hbyte := buffer_full hinline hcoherent hholds hright (by omega) hin hindex
              rw [hbyte, hoff])
            (by omega)
        have hstop : store.cfg.cacheSize < size →
            start + store.cfg.cacheSize + store.cfg.cacheSize + (size - store.cfg.cacheSize) =
              start + store.cfg.cacheSize + size := by
          intro hlt
          omega
        have hshift : ∀ k, start + store.cfg.cacheSize + k * store.cfg.cacheSize =
            start + (k + 1) * store.cfg.cacheSize := by
          intro k
          ring
        constructor
        · rintro ⟨hfits, hright, hmore⟩ k hk hlt
          cases k with
          | zero => exact absurd hk (by norm_num)
          | succ k =>
              rw [← hshift] at hlt ⊢
              cases k with
              | zero =>
                  rw [Nat.zero_mul, Nat.add_zero]
                  exact ⟨hfits, hfill, hrest.mp hright⟩
              | succ k =>
                  have hmul := Nat.le_mul_of_pos_left store.cfg.cacheSize (show 0 < k + 1 by omega)
                  have hroom : start + store.cfg.cacheSize + store.cfg.cacheSize <
                      start + store.cfg.cacheSize + size := by omega
                  have hwindow := (hbehind hright hroom).mp (hmore hroom) (k + 1) (by omega)
                  rw [hstop (by omega)] at hwindow
                  exact hwindow hlt
        · intro hlater
          have hfirst := hlater 1 (le_refl 1) (by omega)
          rw [Nat.one_mul] at hfirst
          have hright := hrest.mpr hfirst.rest
          refine ⟨hfirst.fits, hright, ?_⟩
          intro hmore
          apply (hbehind hright hmore).mpr
          intro k hk hlt
          rw [hstop (by omega), hshift] at hlt ⊢
          exact hlater (k + 1) (by omega) hlt
      · have hshort : ¬start + store.cfg.cacheSize <
            lfsAligndown (start + store.cfg.cacheSize) store.cfg.readSize +
              fillSize store.cfg hint (start + store.cfg.cacheSize) := by
          rw [haligned]
          omega
        apply iff_of_false
        · rintro ⟨-, hanswers⟩
          exact not_answers_of_short hinline hpos (mt LfsCache.load_holds.mp hshort) hshort hanswers
        · intro hlater
          have hfirst := hlater 1 (le_refl 1) (by omega)
          rw [Nat.one_mul] at hfirst
          exact hfill hfirst.fills

/-! ## Calls -/

/-- Where the first window of a call starts: at the bytes that the cache has, or where
it is loaded from. -/
def firstOff (cfg : Config) (rcache : LfsCache) (off : ℕ) : ℕ :=
  if rcache.Holds off then rcache.off else lfsAligndown off cfg.readSize

/-- How much of the first window is filled. -/
def firstSize (cfg : Config) (rcache : LfsCache) (hint off : ℕ) : ℕ :=
  if rcache.Holds off then rcache.size else fillSize cfg hint off

/-- What a call relies on.  Every load ends in front of the end of the block and fills
something of the buffer, and what is copied from behind the filled part of the
buffer happens to be right. -/
structure Covered (cfg : Config) (place : ℕ) (data : List Octet) (rcache : LfsCache)
    (hint off size : ℕ) : Prop where
  load : ¬rcache.Holds off →
    Fits cfg place data (firstOff cfg rcache off) (firstSize cfg rcache hint off) ∧
      off < firstOff cfg rcache off + firstSize cfg rcache hint off
  rest : ∀ index < off + size,
    firstOff cfg rcache off + firstSize cfg rcache hint off ≤ index →
    index < firstOff cfg rcache off + cfg.cacheSize →
    data[index]? = some (rcache.buffer (index - firstOff cfg rcache off))
  later : ∀ k, 1 ≤ k → firstOff cfg rcache off + k * cfg.cacheSize < off + size →
    LaterWindow cfg place data hint (off + size) (firstOff cfg rcache off + k * cfg.cacheSize)

/-- A call whose first byte is in the cache. -/
theorem answers_iff_of_held (haccepted : store.cfg.Accepted)
    (hinline : InlineTag store dir gmask gtag place data)
    (hcoherent : rcache.Coherent store.cfg data) (hholds : rcache.Holds off) (hpos : 0 < size)
    (hin : off + size ≤ data.length) :
    Answers store dir hint gmask gtag place rcache off size ↔
      rcache.RestRight store.cfg data (off + size) ∧
      ∀ k, 1 ≤ k → rcache.off + k * store.cfg.cacheSize < off + size →
        LaterWindow store.cfg place data hint (off + size)
          (rcache.off + k * store.cfg.cacheSize) := by
  have hsize := hcoherent.size_le hholds.1.1
  rw [answers_front hinline hcoherent hholds hpos hin]
  apply and_congr_right
  intro hrest
  by_cases hmore : rcache.off + store.cfg.cacheSize < off + size
  · have hpassed : ¬rcache.Holds (rcache.off + store.cfg.cacheSize) := by
      intro hheld
      have hlt := hheld.1.2
      omega
    have hstop : rcache.off + store.cfg.cacheSize +
        (off + size - (rcache.off + store.cfg.cacheSize)) = off + size := by omega
    rw [forall_prop_of_true hmore, answers_later haccepted hinline hpassed
      (hcoherent.aligned hholds.1.1)
      (fun index hindex => buffer_full hinline hcoherent hholds hrest hmore hin hindex)
      (by omega), hstop]
  · apply iff_of_true
    · exact fun habove => absurd habove hmore
    · intro k hk hlt
      have hmul := Nat.mul_le_mul_right store.cfg.cacheSize hk
      omega

theorem answers_iff (haccepted : store.cfg.Accepted)
    (hinline : InlineTag store dir gmask gtag place data)
    (hcoherent : rcache.Coherent store.cfg data) (hpos : 0 < size)
    (hin : off + size ≤ data.length) :
    Answers store dir hint gmask gtag place rcache off size ↔
      Covered store.cfg place data rcache hint off size := by
  by_cases hholds : rcache.Holds off
  · have hoff : firstOff store.cfg rcache off = rcache.off := if_pos hholds
    have hsize : firstSize store.cfg rcache hint off = rcache.size := if_pos hholds
    rw [answers_iff_of_held haccepted hinline hcoherent hholds hpos hin]
    constructor
    · rintro ⟨hrest, hlater⟩
      constructor
      · exact fun hmiss => absurd hholds hmiss
      · rw [hoff, hsize]
        exact hrest
      · rw [hoff]
        exact hlater
    · intro hcovered
      have hrest := hcovered.rest
      have hlater := hcovered.later
      rw [hoff, hsize] at hrest
      rw [hoff] at hlater
      exact ⟨hrest, hlater⟩
  · have hoff : firstOff store.cfg rcache off = lfsAligndown off store.cfg.readSize :=
      if_neg hholds
    have hsize : firstSize store.cfg rcache hint off = fillSize store.cfg hint off :=
      if_neg hholds
    have hrest : (rcache.load store dir place data hint off).RestRight store.cfg data
        (off + size) ↔ ∀ index < off + size,
          firstOff store.cfg rcache off + firstSize store.cfg rcache hint off ≤ index →
          index < firstOff store.cfg rcache off + store.cfg.cacheSize →
          data[index]? = some (rcache.buffer (index - firstOff store.cfg rcache off)) := by
      rw [hoff, hsize, LfsCache.RestRight]
      apply forall_congr'
      intro index
      apply forall_congr'
      intro hindex
      apply forall_congr'
      intro hfilled
      have hbehind : fillSize store.cfg hint off ≤
          index - (rcache.load store dir place data hint off).off :=
        Nat.le_sub_of_add_le' hfilled
      rw [LfsCache.load_buffer_le hbehind]
      exact Iff.rfl
    rw [answers_missed hinline hpos hholds]
    by_cases hreach : off < lfsAligndown off store.cfg.readSize + fillSize store.cfg hint off
    · rw [answers_iff_of_held haccepted hinline hinline.load_coherent
        (LfsCache.load_holds.mpr hreach) hpos hin, hrest]
      constructor
      · rintro ⟨hfits, hright, hlater⟩
        constructor
        · intro _
          rw [hoff, hsize]
          exact ⟨hfits, hreach⟩
        · exact hright
        · rw [hoff]
          exact hlater
      · intro hcovered
        obtain ⟨hfits, -⟩ := hcovered.load hholds
        have hlater := hcovered.later
        rw [hoff, hsize] at hfits
        rw [hoff] at hlater
        exact ⟨hfits, hcovered.rest, hlater⟩
    · apply iff_of_false
      · rintro ⟨-, hanswers⟩
        exact not_answers_of_short hinline hpos (mt LfsCache.load_holds.mp hreach) hreach hanswers
      · intro hcovered
        have hlt := (hcovered.load hholds).2
        rw [hoff, hsize] at hlt
        exact hreach hlt

/-- A call that is answered leaves a coherent cache. -/
theorem getreadGo_coherent (hinline : InlineTag store dir gmask gtag place data)
    {fuel : ℕ} {bytes : List Octet} {rcache' : LfsCache}
    (hcoherent : rcache.Coherent store.cfg data)
    (hrun : store.getreadGo dir none hint gmask gtag fuel rcache off size =
      some (.ok bytes, rcache')) : rcache'.Coherent store.cfg data := by
  induction fuel generalizing rcache off size bytes with
  | zero => cases hrun
  | succ fuel ih =>
      have hnone : store.readTurn dir none hint gmask gtag rcache off size =
          store.rcacheTurn dir hint gmask gtag rcache off size := rfl
      rw [Store.getreadGo] at hrun
      split at hrun
      · cases hrun
        exact hcoherent
      · rw [hnone] at hrun
        by_cases hholds : rcache.Holds off
        · rw [Store.rcacheTurn, if_pos hholds] at hrun
          obtain ⟨⟨result, last⟩, hrest, hresult⟩ := Option.map_eq_some_iff.mp hrun
          obtain ⟨hbytes, rfl⟩ := Prod.mk.inj hresult
          cases result with
          | error fault => cases hbytes
          | ok rest => exact ih hcoherent hrest
        · obtain ⟨-, hturn⟩ | ⟨-, hturn⟩ := hinline.rcacheTurn_eq hint hholds size
          · rw [hturn] at hrun
            exact ih hinline.load_coherent hrun
          · rw [hturn] at hrun
            cases hrun

/-- A call returns, and what it returns are the bytes asked for. -/
def GetsData (store : Store) (dir : LfsMdir) (rcache : LfsCache) (hint : ℕ) (gmask gtag : Word)
    (off size : ℕ) (data : List Octet) : Prop :=
  ∃ fuel rcache', lfsDirGetread store dir none rcache hint gmask gtag off size fuel =
    some (.ok ((data.drop off).take size), rcache')

/-- The caches that calls on one handle come to: a cache without inline bytes, or with
all that the opening of the file reads, and what answered calls make of them. -/
inductive Reached (store : Store) (dir : LfsMdir) (gmask gtag : Word) (data : List Octet) :
    LfsCache → Prop
  | dropped (rcache : LfsCache) (hblock : rcache.block ≠ inlineWord) :
      Reached store dir gmask gtag data rcache
  | opened (rcache : LfsCache) (hoff : rcache.off = 0) (hsize : rcache.size = store.cfg.cacheSize)
      (hbuffer : ∀ index < store.cfg.cacheSize, index < data.length →
        data[index]? = some (rcache.buffer index)) :
      Reached store dir gmask gtag data rcache
  | called {rcache rcache' : LfsCache} {bytes : List Octet} {off size fuel : ℕ} (hint : ℕ)
      (hbefore : Reached store dir gmask gtag data rcache)
      (hcall : lfsDirGetread store dir none rcache hint gmask gtag off size fuel =
        some (.ok bytes, rcache')) :
      Reached store dir gmask gtag data rcache'

theorem Reached.coherent (hinline : InlineTag store dir gmask gtag place data)
    (hreached : Reached store dir gmask gtag data rcache) : rcache.Coherent store.cfg data := by
  induction hreached with
  | dropped rcache hblock =>
      constructor
      · exact fun hinner => absurd hinner hblock
      · exact fun hinner => absurd hinner hblock
      · exact fun hinner => absurd hinner hblock
  | opened rcache hoff hsize hbuffer =>
      constructor
      · intro _
        rw [hoff]
        exact dvd_zero _
      · intro _
        exact hsize.le
      · intro _ index hindex hin
        rw [hoff, Nat.zero_add] at hin ⊢
        exact hbuffer index (hsize ▸ hindex) hin
  | called hint hbefore hcall ih =>
      rw [lfsDirGetread] at hcall
      split at hcall
      · cases hcall
      · exact getreadGo_coherent hinline ih hcall

theorem getsData_iff (haccepted : store.cfg.Accepted)
    (hinline : InlineTag store dir gmask gtag place data)
    (hcoherent : rcache.Coherent store.cfg data) (hpos : 0 < size)
    (hin : off + size ≤ data.length) :
    GetsData store dir rcache hint gmask gtag off size data ↔
      Covered store.cfg place data rcache hint off size := by
  have hinside := hinline.inside
  rw [GetsData, hinline.slice_eq hin]
  simp only [lfsDirGetread, if_neg (show ¬store.cfg.blockSize < off + size by omega)]
  exact answers_iff haccepted hinline hcoherent hpos hin

theorem getsData_zero (hinline : InlineTag store dir gmask gtag place data)
    (hin : off ≤ data.length) : GetsData store dir rcache hint gmask gtag off 0 data := by
  have hinside := hinline.inside
  refine ⟨1, rcache, ?_⟩
  rw [lfsDirGetread, if_neg (by omega)]
  rfl

/-- The calls that return the bytes asked for, on every cache that calls come to. -/
theorem lfsDirGetread_data_iff (haccepted : store.cfg.Accepted)
    (hinline : InlineTag store dir gmask gtag place data)
    (hreached : Reached store dir gmask gtag data rcache) (hin : off + size ≤ data.length) :
    GetsData store dir rcache hint gmask gtag off size data ↔
      (0 < size → Covered store.cfg place data rcache hint off size) := by
  by_cases hpos : 0 < size
  · rw [getsData_iff haccepted hinline (hreached.coherent hinline) hpos hin,
      forall_prop_of_true hpos]
  · obtain rfl : size = 0 := Nat.eq_zero_of_not_pos hpos
    exact iff_of_true (getsData_zero hinline hin) fun habove => absurd habove hpos

/-! ## An inline file at the end of its block -/

/-- The mask with which the data of an inline file are looked up. -/
def inlineMask : Word := mktag 0xfff 0x1ff 0

def inlineTag (id : ℕ) : Word := mktag tyInlinestruct id 0

def inlineData : List Octet := [1, 2, 3, 4, 5, 6, 7, 8, 9, 10, 11, 12, 13, 14, 15, 16, 17]

/-- One commit that fills a block of 256 bytes: the creation of a file with a long name
and 17 bytes of inline data. -/
def inlineImage : List Octet :=
  [0x01, 0x00, 0x00, 0x00, 0xbf, 0xef, 0xff, 0xff, 0x40, 0x00, 0x00, 0xd7] ++
    List.replicate 215 0x61 ++ [0x20, 0x00, 0x00, 0xc6] ++ inlineData ++
    [0x70, 0x1f, 0xfc, 0x15, 0xf3, 0xf8, 0x4c, 0xe2]

/-- The block under a mount with the given cache. -/
def inlineStore (cacheSize : ℕ) : Store :=
  { blockStore inlineImage with
    cfg := { smallConfig with blockSize := 256, cacheSize := cacheSize, inlineMax := 0 } }

def inlineFetched : Fetched where
  dir :=
    { pair := (0, 1), rev := 1, off := 256, etag := 0x500ffc04, count := 1
      tail := (nullWord, nullWord) }
  id := 1
  result := .next
  seed := 0x3dcc187c

/-- The cache that the opening of the file leaves. -/
def openedCache (cacheSize : ℕ) : LfsCache where
  block := inlineWord
  off := 0
  size := cacheSize
  buffer := fun index => inlineData.getD index 0

/-- A cache without contents. -/
def droppedCache : LfsCache where
  block := nullWord
  off := 0
  size := 0
  buffer := fun _ => 0

theorem inlineStore_inlineTag {cacheSize : ℕ} (hsize : cacheSize = 16 ∨ cacheSize = 32) :
    InlineTag (inlineStore cacheSize) inlineFetched.dir inlineMask (inlineTag 0) 227
      inlineData := by
  obtain rfl | rfl := hsize
  · exact ⟨le_refl 256, 0x20100011, 0, by decide +kernel, by decide +kernel⟩
  · exact ⟨le_refl 256, 0x20100011, 0, by decide +kernel, by decide +kernel⟩

theorem inlineStore_accepted :
    (inlineStore 16).cfg.Accepted ∧ (inlineStore 32).cfg.Accepted := by
  constructor <;> constructor <;> decide

theorem openedCache_reached :
    Reached (inlineStore 16) inlineFetched.dir inlineMask (inlineTag 0) inlineData
      (openedCache 16) := by
  apply Reached.opened (openedCache 16) rfl rfl
  decide

/-- The first sixteen bytes are read; they are in the cache. -/
theorem lfsDirGetread_data_opened :
    GetsData (inlineStore 16) inlineFetched.dir (openedCache 16) 256 inlineMask (inlineTag 0)
        0 16 inlineData ↔
      (0 < 16 → Covered (inlineStore 16).cfg 227 inlineData (openedCache 16) 256 0 16) :=
  lfsDirGetread_data_iff inlineStore_accepted.1 (inlineStore_inlineTag (Or.inl rfl))
    openedCache_reached (by decide)

/-- All seventeen bytes of a file as its opening leaves it: the second load asks for
more than the tag has and does not stay in the block.  With a hint of one byte, a cache
of 32 bytes that is loaded with 16 is copied up to its end. -/
theorem inlineFile_not_read :
    (inlineStore 16).fetchmatch Lookup.fetch.query (0, 1) = some inlineFetched ∧
      (inlineStore 16).cfg.Accepted ∧
      InlineTag (inlineStore 16) inlineFetched.dir inlineMask (inlineTag 0) 227 inlineData ∧
      Reached (inlineStore 16) inlineFetched.dir inlineMask (inlineTag 0) inlineData
        (openedCache 16) ∧
      ¬GetsData (inlineStore 16) inlineFetched.dir (openedCache 16) 256 inlineMask (inlineTag 0)
        0 17 inlineData ∧
      (inlineStore 32).cfg.Accepted ∧
      InlineTag (inlineStore 32) inlineFetched.dir inlineMask (inlineTag 0) 227 inlineData ∧
      Reached (inlineStore 32) inlineFetched.dir inlineMask (inlineTag 0) inlineData
        droppedCache ∧
      ¬GetsData (inlineStore 32) inlineFetched.dir droppedCache 1 inlineMask (inlineTag 0)
        0 17 inlineData := by
  have hdropped : Reached (inlineStore 32) inlineFetched.dir inlineMask (inlineTag 0) inlineData
      droppedCache := Reached.dropped droppedCache (by decide)
  refine ⟨by decide +kernel, inlineStore_accepted.1, inlineStore_inlineTag (Or.inl rfl),
    openedCache_reached, ?_, inlineStore_accepted.2, inlineStore_inlineTag (Or.inr rfl), hdropped,
    ?_⟩
  · rw [getsData_iff inlineStore_accepted.1 (inlineStore_inlineTag (Or.inl rfl))
      (openedCache_reached.coherent (inlineStore_inlineTag (Or.inl rfl))) (by decide) (by decide)]
    intro hcovered
    have hwindow := hcovered.later 1 (le_refl 1) (by decide)
    exact absurd hwindow.fits (by decide)
  · rw [getsData_iff inlineStore_accepted.2 (inlineStore_inlineTag (Or.inr rfl))
      (hdropped.coherent (inlineStore_inlineTag (Or.inr rfl))) (by decide) (by decide)]
    intro hcovered
    exact absurd (hcovered.rest 16 (by decide) (by decide) (by decide)) (by decide)

end Littlefs.Disk
