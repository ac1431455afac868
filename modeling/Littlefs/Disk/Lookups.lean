import Littlefs.Disk.Fetchmatch

/-!
# Lookups that look at one tag

Every caller of `lfs_dir_fetchmatch` passes a callback that compares the data of a
tag with something it was given.  A `Lookup` is such a query together with the
comparison as a function of the tag and its data.
-/

namespace Littlefs.Disk

open Words

/-! ## Reads inside a block -/

/-- The check of the block address in `lfs_bd_read`. -/
def Store.Readable (store : Store) (block : Word) : Prop :=
  store.blockCount = 0 ∨ block.toNat < store.blockCount

variable {store : Store} {block : Word} {off size fuel : ℕ} {crc : Word}

theorem Store.read_eq (hblock : store.Readable block) (hsize : off + size ≤ store.cfg.blockSize) :
    store.read block off size = some (Images.read (store.bytes block) off size) := by
  apply if_neg
  unfold Store.Readable at hblock
  omega

theorem Store.read_eq_none (hsize : store.cfg.blockSize < off + size) :
    store.read block off size = none :=
  if_pos (Or.inl hsize)

theorem Store.crcGo_eq (hblock : store.Readable block) (hfuel : size ≤ fuel)
    (hsize : off + size ≤ store.cfg.blockSize) :
    store.crcGo block fuel off size crc =
      (lfsCrc crc (Images.read (store.bytes block) off size), true) := by
  induction fuel generalizing off size crc with
  | zero =>
      obtain rfl : size = 0 := Nat.le_zero.mp hfuel
      rfl
  | succ fuel ih =>
      by_cases hzero : size = 0
      · subst hzero
        rfl
      · have hchunk : min size 8 ≤ size := min_le_left size 8
        have hpos : 0 < min size 8 := by omega
        have hsplit : size = min size 8 + (size - min size 8) := by omega
        have hread := Images.read_add (store.bytes block) off (min size 8) (size - min size 8)
        rw [← hsplit] at hread
        rw [Store.crcGo, if_neg hzero, Store.read_eq hblock (by omega)]
        simp only
        rw [ih (by omega) (by omega), hread, lfsCrc_append]

/-- The checksum over bytes of one block. -/
theorem Store.crc_eq (hblock : store.Readable block) (hsize : off + size ≤ store.cfg.blockSize) :
    store.crc block off size crc =
      (lfsCrc crc (Images.read (store.bytes block) off size), true) :=
  Store.crcGo_eq hblock (le_refl size) hsize

theorem cmpBytes_append {left left' : List Octet} (right right' : List Octet)
    (hlength : left.length = left'.length) :
    cmpBytes (left ++ right) (left' ++ right') =
      (cmpBytes left left').then (cmpBytes right right') := by
  induction left generalizing left' with
  | nil =>
      cases left' with
      | nil => rfl
      | cons b left' => cases hlength
  | cons a left ih =>
      cases left' with
      | nil => cases hlength
      | cons b left' =>
          have hrest := ih (Nat.succ.inj hlength)
          simp only [List.cons_append, cmpBytes, hrest]
          cases compare a.toNat b.toNat <;> rfl

theorem Store.cmpGo_eq {buffer : List Octet} (hblock : store.Readable block)
    (hfuel : buffer.length ≤ fuel) (hsize : off + buffer.length ≤ store.cfg.blockSize) :
    store.cmpGo block fuel off buffer =
      some (cmpBytes (Images.read (store.bytes block) off buffer.length) buffer) := by
  induction fuel generalizing off buffer with
  | zero =>
      obtain rfl : buffer = [] := List.length_eq_zero_iff.mp (Nat.le_zero.mp hfuel)
      rfl
  | succ fuel ih =>
      by_cases hnil : buffer = []
      · subst hnil
        rfl
      · have hpos : 0 < buffer.length := List.length_pos_iff.mpr hnil
        have hsplit : buffer.length = min buffer.length 8 + (buffer.drop 8).length := by
          rw [List.length_drop]
          omega
        have hread := Images.read_add (store.bytes block) off (min buffer.length 8)
          (buffer.drop 8).length
        rw [← hsplit] at hread
        have htake : (buffer.take 8).length = min buffer.length 8 := by
          rw [List.length_take, min_comm]
        have hlength : (Images.read (store.bytes block) off (min buffer.length 8)).length =
            (buffer.take 8).length := by rw [Images.length_read, htake]
        have hwhole := cmpBytes_append
          (Images.read (store.bytes block) (off + min buffer.length 8) (buffer.drop 8).length)
          (buffer.drop 8) hlength
        rw [← hread, List.take_append_drop] at hwhole
        rw [Store.cmpGo, if_neg hnil, Store.read_eq hblock (by omega), hwhole]
        cases hcmp : cmpBytes (Images.read (store.bytes block) off (min buffer.length 8))
            (buffer.take 8) with
        | lt => simp only [hcmp, Ordering.then]
        | gt => simp only [hcmp, Ordering.then]
        | eq =>
            simp only [hcmp, Ordering.then]
            by_cases hshort : buffer.length ≤ 8
            · have hdrop : buffer.drop 8 = [] := List.drop_eq_nil_of_le hshort
              cases fuel <;> simp [hdrop, Store.cmpGo, Images.read, cmpBytes]
            · have height : min buffer.length 8 = 8 := by omega
              rw [height]
              apply ih
              · rw [List.length_drop]
                omega
              · rw [List.length_drop]
                omega

theorem Store.cmp_eq {buffer : List Octet} (hblock : store.Readable block)
    (hsize : off + buffer.length ≤ store.cfg.blockSize) :
    store.cmp block off buffer =
      some (cmpBytes (Images.read (store.bytes block) off buffer.length) buffer) :=
  Store.cmpGo_eq hblock (le_refl _) hsize

/-! ## Lookups -/

/-- A query whose callback compares the data of the tags it is asked about.  The
comparison covers no tag of the size that marks a deletion, which has no data. -/
structure Lookup where
  query : Query
  judge : Word → List Octet → Ordering
  judges : ∀ (store : Store) (tag block : Word) (off : ℕ), store.Readable block →
    off + (tagOf tag).size ≤ store.cfg.blockSize → (tagOf tag).isdelete = false →
    query.selects tag = true →
    query.cb store tag block off =
      some (judge tag (Images.read (store.bytes block) off (tagOf tag).size))

/-- `lfs_dir_fetch`. -/
def Lookup.fetch : Lookup where
  query := Query.fetch
  judge := fun _ _ => .lt
  judges := by
    intro store tag block off hblock hsize hdelete hselects
    have htag : tag = BitVec.allOnes 32 := by
      have hand : BitVec.allOnes 32 &&& tag = BitVec.allOnes 32 &&& BitVec.allOnes 32 :=
        beq_iff_eq.mp hselects
      rwa [BitVec.allOnes_and, BitVec.allOnes_and] at hand
    subst htag
    exact absurd hdelete (by decide)

def judgeName (name : List Octet) (tag : Word) (data : List Octet) : Ordering :=
  let diff := min name.length (tagOf tag).size
  (cmpBytes (data.take diff) (name.take diff)).then (compare name.length (tagOf tag).size)

theorem findMatch_eq (name : List Octet) {tag : Word} (hblock : store.Readable block)
    (hsize : off + (tagOf tag).size ≤ store.cfg.blockSize) :
    findMatch name store tag block off =
      some (judgeName name tag (Images.read (store.bytes block) off (tagOf tag).size)) := by
  have hlength : (name.take (min name.length (tagOf tag).size)).length =
      min name.length (tagOf tag).size := by
    rw [List.length_take]
    omega
  have hcmp : store.cmp block off (name.take (min name.length (tagOf tag).size)) = _ :=
    Store.cmp_eq hblock (by omega)
  rw [hlength] at hcmp
  simp only [findMatch, hcmp, judgeName]
  rw [Images.take_read (min_le_right _ _)]
  cases cmpBytes (Images.read (store.bytes block) off (min name.length (tagOf tag).size))
    (name.take (min name.length (tagOf tag).size)) <;> rfl

/-- `lfs_dir_find`. -/
def Lookup.find (name : List Octet) : Lookup where
  query := Query.find name
  judge := judgeName name
  judges := fun _ _ _ _ hblock hsize _ _ => findMatch_eq name hblock hsize

/-- The search of `lfs_mount` for the superblock entry, by the name `littlefs`. -/
def Lookup.superblock : Lookup where
  query :=
    { fmask := mktag 0x7ff 0x3ff 0
      ftag := mktag tySuperblock 0 8
      cb := findMatch [0x6c, 0x69, 0x74, 0x74, 0x6c, 0x65, 0x66, 0x73] }
  judge := judgeName [0x6c, 0x69, 0x74, 0x74, 0x6c, 0x65, 0x66, 0x73]
  judges := fun _ _ _ _ hblock hsize _ _ => findMatch_eq _ hblock hsize

def judgeParent (pair : WordPair) (_ : Word) (data : List Octet) : Ordering :=
  let child : WordPair := (ofLeBytes data, ofLeBytes (data.drop 4))
  if lfsPairCmp child.toPair pair.toPair then .lt else .eq

/-- The host gets the value of little-endian bytes in either order. -/
theorem le_ofBytes (order : ByteOrder) {buffer : List Octet} (hlength : 4 ≤ buffer.length) :
    order.le (order.ofBytes buffer) = ofLeBytes buffer := by
  match buffer, hlength with
  | a :: b :: c :: d :: rest, _ =>
      have hbytes : leBytes (ofLeBytes [a, b, c, d]) = [a, b, c, d] := leBytes_ofLeBytes a b c d
      have hread := ByteOrder.ofBytes_leBytes_append order (ofLeBytes [a, b, c, d]) rest
      rw [hbytes] at hread
      calc order.le (order.ofBytes (a :: b :: c :: d :: rest))
          = order.le (order.le (ofLeBytes [a, b, c, d])) := congrArg order.le hread
        _ = ofLeBytes [a, b, c, d] := ByteOrder.le_le order _
        _ = ofLeBytes (a :: b :: c :: d :: rest) := rfl

theorem size_of_selects_parent {pair : WordPair} {tag : Word}
    (hselects : (Query.parent pair).selects tag = true) : (tagOf tag).size = 8 := by
  have hand : mktag 0x7ff 0 0x3ff &&& tag = mktag 0x7ff 0 0x3ff &&& mktag tyDirstruct 0 8 := by
    simpa [Query.selects, Query.parent] using hselects
  have hlow := congrArg (fun word : Word => word.toNat % 2 ^ 10) hand
  simp only [BitVec.toNat_and, Nat.and_mod_two_pow] at hlow
  have hmask : (mktag 0x7ff 0 0x3ff).toNat % 2 ^ 10 = 2 ^ 10 - 1 := by decide
  have height : (mktag tyDirstruct 0 8).toNat % 2 ^ 10 = 8 := by decide
  have hall : ∀ n : ℕ, (2 ^ 10 - 1) &&& n % 2 ^ 10 = n % 2 ^ 10 := by
    intro n
    rw [Nat.and_comm, Nat.and_two_pow_sub_one_eq_mod, Nat.mod_mod]
  rw [hmask, hall, height] at hlow
  exact hlow

/-- `lfs_fs_parent`. -/
def Lookup.parent (pair : WordPair) : Lookup where
  query := Query.parent pair
  judge := judgeParent pair
  judges := by
    intro store tag block off hblock hsize hdelete hselects
    have height := size_of_selects_parent hselects
    rw [height] at hsize ⊢
    have hread := Store.read_eq hblock hsize
    have hfirst : store.order.le (store.order.ofBytes (Images.read (store.bytes block) off 8)) =
        ofLeBytes (Images.read (store.bytes block) off 8) := le_ofBytes _ (by simp)
    have hsecond :
        store.order.le (store.order.ofBytes ((Images.read (store.bytes block) off 8).drop 4)) =
          ofLeBytes ((Images.read (store.bytes block) off 8).drop 4) := le_ofBytes _ (by simp)
    simp only [Query.parent, parentMatch, hread, judgeParent, hfirst, hsecond]
    split <;> rfl

end Littlefs.Disk
