import Littlefs.Init

/-!
# Positions in a block list

`lfs_ctz_index` puts the block of a position down to one division, corrected by a
population count.  For every block size that `lfs_init` accepts, and every position
that fits a word, it finds the place that the layout of the blocks gives it, and no
operation on the way overflows.
-/

namespace Littlefs

open SkipLists

/-- `lfs_ctz_index` on 32-bit words; `none` stands for an overflow or a division by zero. -/
def lfsCtzIndexChecked (blockSize size : ℕ) : Option (ℕ × ℕ) := do
  let b ← Checked.sub blockSize 8
  let i ← Checked.div size b
  if i = 0 then
    return (0, size)
  let ones ← lfsPopcChecked (← Checked.sub i 1)
  let skew ← Checked.mul 4 (← Checked.add ones 2)
  let i ← Checked.div (← Checked.sub size skew) b
  let rest ← Checked.sub size (← Checked.mul b i)
  let off ← Checked.sub rest (← Checked.mul 4 (← lfsPopcChecked i))
  return (i, off)

/-- Blocks enough for every position that fits a word. -/
def ctzCount : ℕ := 2 ^ 26

theorem pointers_le {index : ℕ} (hlt : index < ctzCount) : pointers index ≤ 26 := by
  obtain rfl | hpos := Nat.eq_zero_or_pos index
  · simp
  · rw [pointers_of_pos hpos]
    exact twos_lt hpos hlt

/-- The blocks of a file: four bytes a pointer. -/
def ctzLayout (blockSize : ℕ) (hblock : 128 ≤ blockSize) : Layout where
  word := 4
  node := blockSize
  count := ctzCount
  room := fun index hindex => by
    have hle := pointers_le hindex
    omega

variable {blockSize : ℕ} {hblock : 128 ≤ blockSize} {index off position : ℕ}

theorem ctzLayout_stride : (ctzLayout blockSize hblock).stride = blockSize - 8 := rfl

theorem ctzLayout_skew (index : ℕ) :
    (ctzLayout blockSize hblock).skew index = 4 * (ones index + 2) := rfl

theorem ctzLayout_divides : (ctzLayout blockSize hblock).Divides := by
  intro index hindex
  have hones := ones_le_of_lt (show index < 2 ^ 26 from hindex)
  rw [ctzLayout_skew, ctzLayout_stride]
  omega

/-- Every word is the position of some place. -/
theorem exists_ctzAt (hblock : 128 ≤ blockSize) (hword : position < 2 ^ 32) :
    ∃ index off, (ctzLayout blockSize hblock).At position index off := by
  have hstart : (ctzLayout blockSize hblock).start (ctzCount - 1) + 2 * 4 * (ctzCount - 1) =
      blockSize * (ctzCount - 1) + 4 * ones (ctzCount - 1) + 4 * pointers (ctzCount - 1) :=
    Layout.start_eq (Nat.sub_le _ _)
  have hnode : 128 * (ctzCount - 1) ≤ blockSize * (ctzCount - 1) :=
    Nat.mul_le_mul_right _ hblock
  have hfits : 2 ^ 32 ≤ (ctzLayout blockSize hblock).start (ctzCount - 1) := by
    norm_num [ctzCount] at hstart hnode ⊢
    omega
  obtain ⟨index, off, -, hat⟩ := Layout.exists_at
    (show ctzCount - 1 < (ctzLayout blockSize hblock).count by norm_num [ctzLayout, ctzCount])
    (lt_of_lt_of_le hword hfits)
  exact ⟨index, off, hat⟩

/-- No operation of `lfs_ctz_index` overflows, and it finds the place of the position. -/
theorem lfsCtzIndexChecked_eq (hat : (ctzLayout blockSize hblock).At position index off)
    (hword : position < 2 ^ 32) : lfsCtzIndexChecked blockSize position = some (index, off) := by
  have hb : Checked.sub blockSize 8 = some (blockSize - 8) := Checked.sub_eq (by omega)
  have hquotient : Checked.div position (blockSize - 8) = some (position / (blockSize - 8)) :=
    Checked.div_eq (by omega)
  have heq := hat.eq_stride ctzLayout_divides
  have hindex := hat.div_stride ctzLayout_divides
  rw [ctzLayout_stride] at heq hindex
  have hones : (ctzLayout blockSize hblock).word * ones index = 4 * ones index := rfl
  rw [hones] at heq
  simp only [lfsCtzIndexChecked, hb, hquotient, Option.bind_eq_bind, Option.bind_some]
  by_cases hzero : position / (blockSize - 8) = 0
  · have hfirst : index = 0 := by omega
    subst hfirst
    rw [if_pos hzero]
    simp only [ones_zero, Nat.mul_zero, Nat.zero_add] at heq
    rw [heq]
    rfl
  · obtain ⟨hskew, hdiv⟩ := hat.corrected_div ctzLayout_divides hzero
    rw [ctzLayout_stride, ctzLayout_skew] at hskew hdiv
    have hpred : Checked.sub (position / (blockSize - 8)) 1 =
        some (position / (blockSize - 8) - 1) := Checked.sub_eq (by omega)
    have hsmall : position / (blockSize - 8) - 1 < 2 ^ 32 :=
      lt_of_le_of_lt (Nat.sub_le _ _) (lt_of_le_of_lt (Nat.div_le_self _ _) hword)
    have hindex_lt : index < 2 ^ 32 := lt_trans hat.index_lt (by norm_num [ctzLayout, ctzCount])
    have hadd := Checked.add_eq (a := ones (position / (blockSize - 8) - 1)) (b := 2) (by omega)
    have hmul := Checked.mul_eq (a := 4) (b := ones (position / (blockSize - 8) - 1) + 2)
      (by omega)
    have hsub := Checked.sub_eq hskew
    have hcorrected := Checked.div_eq
      (a := position - 4 * (ones (position / (blockSize - 8) - 1) + 2)) (b := blockSize - 8)
      (by omega)
    rw [hdiv] at hcorrected
    have hblocks := Checked.mul_eq (a := blockSize - 8) (b := index) (by omega)
    have hrest := Checked.sub_eq (a := position) (b := (blockSize - 8) * index) (by omega)
    have hpointers := Checked.mul_eq (a := 4) (b := ones index) (by omega)
    have hoff := Checked.sub_eq (a := position - (blockSize - 8) * index) (b := 4 * ones index)
      (by omega)
    rw [if_neg hzero, hpred, Option.bind_some, lfsPopcChecked_eq, lfsPopc_eq hsmall,
      Option.bind_some, hadd, Option.bind_some, hmul, Option.bind_some, hsub, Option.bind_some,
      hcorrected, Option.bind_some, hblocks, Option.bind_some, hrest, Option.bind_some,
      lfsPopcChecked_eq, lfsPopc_eq hindex_lt, Option.bind_some, hpointers, Option.bind_some, hoff,
      Option.bind_some]
    have hoffset : position - (blockSize - 8) * index - 4 * ones index = off := by omega
    rw [hoffset]
    rfl

theorem lfsCtzIndex_eq (hat : (ctzLayout blockSize hblock).At position index off)
    (hword : position < 2 ^ 32) : lfsCtzIndex blockSize position = (index, off) := by
  have heq := hat.eq_stride ctzLayout_divides
  have hindex := hat.div_stride ctzLayout_divides
  have hones : (ctzLayout blockSize hblock).word * ones index = 4 * ones index := rfl
  rw [hones] at heq
  rw [ctzLayout_stride] at heq hindex
  rw [lfsCtzIndex]
  by_cases hzero : position / (blockSize - 8) = 0
  · have hfirst : index = 0 := by omega
    subst hfirst
    simp only [ones_zero, Nat.mul_zero, Nat.zero_add] at heq
    rw [if_pos hzero, heq]
  · obtain ⟨hskew, hdiv⟩ := hat.corrected_div ctzLayout_divides hzero
    rw [ctzLayout_stride, ctzLayout_skew] at hskew hdiv
    have hsmall : position / (blockSize - 8) - 1 < 2 ^ 32 :=
      lt_of_le_of_lt (Nat.sub_le _ _) (lt_of_le_of_lt (Nat.div_le_self _ _) hword)
    have hindex_lt : index < 2 ^ 32 := lt_trans hat.index_lt (by norm_num [ctzLayout, ctzCount])
    have hoffset : position - (blockSize - 8) * index - 4 * ones index = off := by omega
    rw [if_neg hzero, lfsPopc_eq hsmall]
    dsimp only
    rw [hdiv, lfsPopc_eq hindex_lt, hoffset]

/-! ## Places -/

/-- The bytes of the pointers that block `i` begins with. -/
def ctzPointerBytes (i : ℕ) : ℕ := if i = 0 then 0 else 4 * (lfsCtz i + 1)

/-- The place behind a place. -/
def ctzNext (blockSize : ℕ) (place : ℕ × ℕ) : ℕ × ℕ :=
  if place.2 + 1 < blockSize then (place.1, place.2 + 1)
  else (place.1 + 1, ctzPointerBytes (place.1 + 1))

/-- Byte `place.2` of block `place.1` is data and holds the byte at `position`. -/
structure CtzPlace (blockSize position : ℕ) (place : ℕ × ℕ) : Prop where
  eq : position = (blockSize - 8) * place.1 + 4 * lfsPopc place.1 + place.2
  le_off : ctzPointerBytes place.1 ≤ place.2
  off_lt : place.2 < blockSize

theorem ctzPointerBytes_eq (hlt : index < 2 ^ 32) : ctzPointerBytes index = 4 * pointers index := by
  obtain rfl | hpos := Nat.eq_zero_or_pos index
  · rfl
  · rw [ctzPointerBytes, if_neg hpos.ne', lfsCtz_eq hpos hlt, pointers_of_pos hpos]

/-- The places of a position are those that the layout of the blocks gives it. -/
theorem ctzPlace_iff (hblock : 128 ≤ blockSize) (hword : position < 2 ^ 32) :
    CtzPlace blockSize position (index, off) ↔
      (ctzLayout blockSize hblock).At position index off := by
  constructor
  · intro hplace
    obtain ⟨heq, hle, hlt⟩ := hplace
    dsimp only at heq hle hlt
    have hindex : index < ctzCount := by
      have hmul : 120 * index ≤ (blockSize - 8) * index := Nat.mul_le_mul_right _ (by omega)
      have hcount : ctzCount = 2 ^ 26 := rfl
      omega
    have hsmall : index < 2 ^ 32 := lt_of_lt_of_le hindex (by norm_num [ctzCount])
    have hstart : (ctzLayout blockSize hblock).start index + 2 * 4 * index =
        blockSize * index + 4 * ones index + 4 * pointers index :=
      Layout.start_eq (le_of_lt hindex)
    have hmul : (blockSize - 8) * index + 8 * index = blockSize * index := by
      rw [← Nat.add_mul, Nat.sub_add_cancel (by omega)]
    rw [ctzPointerBytes_eq hsmall] at hle
    rw [lfsPopc_eq hsmall] at heq
    have hplaced : position + 4 * pointers index =
        (ctzLayout blockSize hblock).start index + off := by
      omega
    exact { index_lt := hindex, le_off := hle, off_lt := hlt, eq := hplaced }
  · intro hat
    have hsmall : index < 2 ^ 32 := lt_of_lt_of_le hat.index_lt (by norm_num [ctzLayout, ctzCount])
    have heq := hat.eq_stride ctzLayout_divides
    have hle := hat.le_off
    exact { eq := by rw [lfsPopc_eq hsmall]; exact heq
            le_off := by rw [ctzPointerBytes_eq hsmall]; exact hle
            off_lt := hat.off_lt }

/-- There are blocks behind the one of a word. -/
theorem succ_lt_ctzCount (hat : (ctzLayout blockSize hblock).At position index off)
    (hword : position < 2 ^ 32) : index + 1 < ctzCount := by
  have heq : position = (blockSize - 8) * index + 4 * ones index + off :=
    hat.eq_stride ctzLayout_divides
  have hmul : 120 * index ≤ (blockSize - 8) * index := Nat.mul_le_mul_right _ (by omega)
  have hcount : ctzCount = 2 ^ 26 := rfl
  omega

/-- The place of the next position. -/
theorem ctzNext_eq (hindex : index + 1 < ctzCount) :
    ctzNext blockSize (index, off) = (ctzLayout blockSize hblock).next (index, off) := by
  have hsmall : index + 1 < 2 ^ 32 := lt_trans hindex (by norm_num [ctzCount])
  rw [ctzNext, Layout.next, ctzPointerBytes_eq hsmall]
  rfl

/-- `lfs_ctz_index` runs through the data of the blocks in order: it finds the one place that
a position has, and the next position is at the next place. -/
theorem lfsCtzIndex_enumerates {cfg : Config} (haccepted : cfg.Accepted) :
    lfsCtzIndexChecked cfg.blockSize 0 = some (0, 0) ∧
      ∀ position < 2 ^ 31, ∃ place,
        lfsCtzIndexChecked cfg.blockSize position = some place ∧
        place.1 < 2 ^ 31 ∧
        (∀ place', CtzPlace cfg.blockSize position place' ↔ place' = place) ∧
        (position + 1 < 2 ^ 31 →
          lfsCtzIndexChecked cfg.blockSize (position + 1) = some (ctzNext cfg.blockSize place)) ∧
        ∀ position' < 2 ^ 31,
          lfsCtzIndexChecked cfg.blockSize position' = some place → position' = position := by
  have hblock := haccepted.block_ge
  constructor
  · have hzero : (ctzLayout cfg.blockSize hblock).At 0 0 0 :=
      Layout.at_zero (by norm_num [ctzLayout, ctzCount])
    exact lfsCtzIndexChecked_eq hzero (by norm_num)
  · intro position hposition
    obtain ⟨index, off, hat⟩ := exists_ctzAt hblock (show position < 2 ^ 32 by omega)
    have hrun := lfsCtzIndexChecked_eq hat (by omega)
    have hcount := succ_lt_ctzCount hat (by omega)
    refine ⟨(index, off), hrun, ?_, ?_, ?_, ?_⟩
    · exact lt_trans hat.index_lt (by norm_num [ctzLayout, ctzCount])
    · rintro ⟨index', off'⟩
      rw [ctzPlace_iff hblock (by omega), Prod.mk.injEq]
      constructor
      · intro hat'
        exact hat'.unique hat
      · rintro ⟨rfl, rfl⟩
        exact hat
    · intro hsucc
      have hnext := hat.succ hcount
      rw [← ctzNext_eq hcount] at hnext
      exact lfsCtzIndexChecked_eq hnext (by omega)
    · intro position' hposition' hrun'
      obtain ⟨index', off', hat'⟩ := exists_ctzAt hblock (show position' < 2 ^ 32 by omega)
      rw [lfsCtzIndexChecked_eq hat' (by omega), Option.some.injEq, Prod.mk.injEq] at hrun'
      obtain ⟨rfl, rfl⟩ := hrun'
      exact hat'.inj hat

/-- Position 4100 of a file of blocks of 512 bytes is in the block of index 8. -/
theorem lfsCtzIndex_enumerates_default : lfsCtzIndexChecked 512 4100 = some (8, 64) ∧
    CtzPlace 512 4100 (8, 64) ∧ lfsCtzIndexChecked 512 4101 = some (ctzNext 512 (8, 64)) := by
  obtain ⟨-, hall⟩ := lfsCtzIndex_enumerates defaultConfig_accepted
  obtain ⟨place, hrun, -, hplaces, hnext, -⟩ := hall 4100 (by norm_num)
  have hplace : place = (8, 64) := by
    have hrun' : lfsCtzIndexChecked 512 4100 = some (8, 64) := by decide +kernel
    exact (Option.some.inj (hrun'.symm.trans hrun)).symm
  subst hplace
  exact ⟨hrun, (hplaces _).mpr rfl, hnext (by norm_num)⟩

/-- The data of block 1 do not start at `b + 4 * popc 1` less its pointer bytes, but as many
bytes behind it. -/
theorem lfsCtzIndex_start_behind_pointers :
    lfsCtzIndexChecked 512 ((512 - 8) * 1 + 4 * lfsPopc 1 - ctzPointerBytes 1) = some (0, 504) ∧
      lfsCtzIndexChecked 512 ((512 - 8) * 1 + 4 * lfsPopc 1 + ctzPointerBytes 1) =
        some (1, ctzPointerBytes 1) := by
  decide +kernel

end Littlefs
