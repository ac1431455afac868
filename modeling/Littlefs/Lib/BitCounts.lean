import Littlefs.Lib.SkipLists

/-!
# Counting bits with shifts and masks

The population count that adds up neighbouring fields, the logarithm that halves
the width of the word, and the lowest bit set.  They agree with the counts of
bits and with the exponent of two.
-/

namespace Littlefs.BitCounts

open SkipLists

/-! ## Masks and bytes -/

/-- A mask splits at a byte. -/
theorem and_split (value mask : ℕ) : value &&& mask =
    (value % 2 ^ 8 &&& mask % 2 ^ 8) + 2 ^ 8 * (value / 2 ^ 8 &&& mask / 2 ^ 8) := by
  rw [← Nat.and_mod_two_pow, ← Nat.and_div_two_pow, Nat.mod_add_div]

/-- The mask drops the bits that a shift brings in from the byte above. -/
theorem shift_and_split (value shift mask : ℕ) (hshift : shift ≤ 8)
    (hmask : mask % 2 ^ 8 < 2 ^ (8 - shift)) :
    value >>> shift &&& mask = ((value % 2 ^ 8) >>> shift &&& mask % 2 ^ 8) +
      2 ^ 8 * ((value / 2 ^ 8) >>> shift &&& mask / 2 ^ 8) := by
  have hlow : value >>> shift % 2 ^ 8 &&& mask % 2 ^ 8 =
      (value % 2 ^ 8) >>> shift &&& mask % 2 ^ 8 := by
    have hdrop : ∀ left : ℕ, left &&& mask % 2 ^ 8 =
        left % 2 ^ (8 - shift) &&& mask % 2 ^ 8 := by
      intro left
      have hmod := Nat.and_mod_two_pow (a := left) (b := mask % 2 ^ 8) (n := 8 - shift)
      have hlt : left &&& mask % 2 ^ 8 < 2 ^ (8 - shift) :=
        lt_of_le_of_lt Nat.and_le_right hmask
      rw [Nat.mod_eq_of_lt hlt, Nat.mod_eq_of_lt hmask] at hmod
      exact hmod
    have hpow : (2 : ℕ) ^ 8 = 2 ^ shift * 2 ^ (8 - shift) := by
      rw [← pow_add]
      congr 1
      omega
    have hdvd : (2 : ℕ) ^ (8 - shift) ∣ 2 ^ 8 := pow_dvd_pow 2 (Nat.sub_le 8 shift)
    rw [hdrop (value >>> shift % 2 ^ 8), hdrop ((value % 2 ^ 8) >>> shift),
      Nat.mod_mod_of_dvd _ hdvd, Nat.shiftRight_eq_div_pow, Nat.shiftRight_eq_div_pow, hpow,
      Nat.mod_mul_right_div_self, Nat.mod_mod]
  have hhigh : value >>> shift / 2 ^ 8 = (value / 2 ^ 8) >>> shift := by
    rw [Nat.shiftRight_eq_div_pow, Nat.shiftRight_eq_div_pow, Nat.div_div_eq_div_mul,
      Nat.div_div_eq_div_mul, Nat.mul_comm]
  rw [and_split, hlow, hhigh]

/-! ## Bits set -/

/-- Every field of two bits, replaced by its count. -/
def pairs (mask value : ℕ) : ℕ := value - (value >>> 1 &&& mask)

/-- The counts of neighbouring fields, added up. -/
def nibbles (mask value : ℕ) : ℕ := (value &&& mask) + (value >>> 2 &&& mask)

/-- The counts of the bytes, added up in the top byte. -/
def total (value : ℕ) : ℕ :=
  ((value + value >>> 4 &&& 0x0f0f0f0f) * 0x01010101 % 2 ^ 32) >>> 24

theorem shifted_le (value shift mask : ℕ) : value >>> shift &&& mask ≤ value :=
  le_trans Nat.and_le_left (Nat.shiftRight_le value shift)

theorem pairs_split (value mask : ℕ) (hmask : mask % 2 ^ 8 < 2 ^ 7) : pairs mask value =
    pairs (mask % 2 ^ 8) (value % 2 ^ 8) + 2 ^ 8 * pairs (mask / 2 ^ 8) (value / 2 ^ 8) := by
  have hlow := shifted_le (value % 2 ^ 8) 1 (mask % 2 ^ 8)
  have hhigh := shifted_le (value / 2 ^ 8) 1 (mask / 2 ^ 8)
  rw [pairs, pairs, pairs, shift_and_split value 1 mask (by norm_num) hmask]
  omega

theorem nibbles_split (value mask : ℕ) (hmask : mask % 2 ^ 8 < 2 ^ 6) : nibbles mask value =
    nibbles (mask % 2 ^ 8) (value % 2 ^ 8) + 2 ^ 8 * nibbles (mask / 2 ^ 8) (value / 2 ^ 8) := by
  rw [nibbles, nibbles, nibbles, shift_and_split value 2 mask (by norm_num) hmask,
    and_split value mask]
  omega

/-- The counts of the two halves of a byte. -/
def byteCounts (byte : ℕ) : ℕ := nibbles 0x33 (pairs 0x55 byte)

theorem byteCounts_eq {byte : ℕ} (hlt : byte < 2 ^ 8) : byteCounts byte % 16 ≤ 4 ∧
    byteCounts byte / 16 ≤ 4 ∧ byteCounts byte % 16 + byteCounts byte / 16 = ones byte := by
  have hall : ∀ byte : Fin (2 ^ 8), byteCounts byte % 16 ≤ 4 ∧ byteCounts byte / 16 ≤ 4 ∧
      byteCounts byte % 16 + byteCounts byte / 16 = ones byte := by
    decide +kernel
  exact hall ⟨byte, hlt⟩

/-- The bytes of a word are counted one by one. -/
theorem counts_split (value evens quads : ℕ) (hevens : evens % 2 ^ 8 = 0x55)
    (hquads : quads % 2 ^ 8 = 0x33) : nibbles quads (pairs evens value) =
      byteCounts (value % 2 ^ 8) +
        2 ^ 8 * nibbles (quads / 2 ^ 8) (pairs (evens / 2 ^ 8) (value / 2 ^ 8)) := by
  have hbyte : pairs 0x55 (value % 2 ^ 8) < 2 ^ 8 :=
    lt_of_le_of_lt (Nat.sub_le _ _) (Nat.mod_lt value (by norm_num))
  have hpairs := pairs_split value evens (by rw [hevens]; norm_num)
  rw [hevens] at hpairs
  have hlow : pairs evens value % 2 ^ 8 = pairs 0x55 (value % 2 ^ 8) := by omega
  have hhigh : pairs evens value / 2 ^ 8 = pairs (evens / 2 ^ 8) (value / 2 ^ 8) := by omega
  rw [nibbles_split _ _ (by rw [hquads]; norm_num), hquads, hlow, hhigh, byteCounts]

/-- The low halves of the bytes of a word. -/
theorem low_halves (value : ℕ) : value &&& 0x0f0f0f0f = value % 16 + 2 ^ 8 * (value / 2 ^ 8 % 16) +
    2 ^ 16 * (value / 2 ^ 8 / 2 ^ 8 % 16) + 2 ^ 24 * (value / 2 ^ 8 / 2 ^ 8 / 2 ^ 8 % 16) := by
  have hmask : ∀ byte : ℕ, byte &&& 15 = byte % 16 := fun byte =>
    Nat.and_two_pow_sub_one_eq_mod byte 4
  rw [and_split, and_split (value / 2 ^ 8), and_split (value / 2 ^ 8 / 2 ^ 8)]
  norm_num [hmask]
  omega

/-- Multiplying adds the four fields up in the top byte. -/
theorem fields_add {field0 field1 field2 field3 : ℕ}
    (hsmall : field0 ≤ 8 ∧ field1 ≤ 8 ∧ field2 ≤ 8 ∧ field3 ≤ 8) :
    (field0 + 2 ^ 8 * field1 + 2 ^ 16 * field2 + 2 ^ 24 * field3) * 0x01010101 % 2 ^ 32 / 2 ^ 24 =
      field0 + (field1 + (field2 + field3)) := by
  obtain ⟨low, hlow⟩ : ∃ low, low = field0 + 2 ^ 8 * (field0 + field1) +
      2 ^ 16 * (field0 + field1 + field2) := ⟨_, rfl⟩
  obtain ⟨high, hhigh⟩ : ∃ high, high = field1 + field2 * (1 + 2 ^ 8) +
      field3 * (1 + 2 ^ 8 + 2 ^ 16) := ⟨_, rfl⟩
  have hproduct : (field0 + 2 ^ 8 * field1 + 2 ^ 16 * field2 + 2 ^ 24 * field3) * 0x01010101 =
      low + 2 ^ 24 * (field0 + (field1 + (field2 + field3)) + 2 ^ 8 * high) := by
    rw [hlow, hhigh]
    ring
  have hlt : low < 2 ^ 24 := by omega
  rw [hproduct]
  clear hproduct hlow hhigh
  omega

/-- Adding the shifted word adds the halves of every byte, without a carry. -/
theorem halves_add {low0 high0 low1 high1 low2 high2 low3 high3 : ℕ}
    (hsmall : low0 ≤ 4 ∧ high0 ≤ 4 ∧ low1 ≤ 4 ∧ high1 ≤ 4 ∧ low2 ≤ 4 ∧ high2 ≤ 4 ∧
      low3 ≤ 4 ∧ high3 ≤ 4) :
    total (low0 + 16 * high0 + 2 ^ 8 * (low1 + 16 * high1 + 2 ^ 8 * (low2 + 16 * high2 +
      2 ^ 8 * (low3 + 16 * high3)))) =
      low0 + high0 + (low1 + high1 + (low2 + high2 + (low3 + high3))) := by
  obtain ⟨rest1, hrest1⟩ : ∃ rest, rest = low2 + high2 + 16 * (high2 + low3 +
      16 * (low3 + high3 + 16 * high3)) := ⟨_, rfl⟩
  obtain ⟨rest0, hrest0⟩ : ∃ rest, rest = low1 + high1 + 16 * (high1 + low2 + 16 * rest1) :=
    ⟨_, rfl⟩
  have hshift : (low0 + 16 * high0 + 2 ^ 8 * (low1 + 16 * high1 + 2 ^ 8 * (low2 + 16 * high2 +
      2 ^ 8 * (low3 + 16 * high3)))) / 2 ^ 4 = high0 + 2 ^ 4 * (low1 + 16 * high1 +
        2 ^ 8 * (low2 + 16 * high2 + 2 ^ 8 * (low3 + 16 * high3))) := by
    omega
  rw [total, Nat.shiftRight_eq_div_pow, Nat.shiftRight_eq_div_pow, hshift]
  have hsum : low0 + 16 * high0 + 2 ^ 8 * (low1 + 16 * high1 + 2 ^ 8 * (low2 + 16 * high2 +
      2 ^ 8 * (low3 + 16 * high3))) + (high0 + 2 ^ 4 * (low1 + 16 * high1 +
        2 ^ 8 * (low2 + 16 * high2 + 2 ^ 8 * (low3 + 16 * high3)))) =
      low0 + high0 + 16 * (high0 + low1 + 16 * rest0) := by
    rw [hrest0, hrest1]
    ring
  rw [hsum, low_halves]
  have hfield0 : (low0 + high0 + 16 * (high0 + low1 + 16 * rest0)) % 16 = low0 + high0 := by
    omega
  have hdrop : (low0 + high0 + 16 * (high0 + low1 + 16 * rest0)) / 2 ^ 8 = rest0 := by omega
  have hdrop1 : rest0 / 2 ^ 8 = rest1 := by omega
  have hdrop2 : rest1 / 2 ^ 8 = low3 + high3 + 16 * high3 := by omega
  have hfield1 : rest0 % 16 = low1 + high1 := by omega
  have hfield2 : rest1 % 16 = low2 + high2 := by omega
  have hfield3 : (low3 + high3 + 16 * high3) % 16 = low3 + high3 := by omega
  rw [hdrop, hdrop1, hdrop2, hfield0, hfield1, hfield2, hfield3]
  exact fields_add (by omega)

theorem total_eq {value : ℕ} (hlt : value < 2 ^ 32) :
    total (nibbles 0x33333333 (pairs 0x55555555 value)) = ones value := by
  have hsplit : value = value % 2 ^ 8 + 2 ^ 8 * (value / 2 ^ 8 % 2 ^ 8 +
      2 ^ 8 * (value / 2 ^ 8 / 2 ^ 8 % 2 ^ 8 + 2 ^ 8 * (value / 2 ^ 8 / 2 ^ 8 / 2 ^ 8))) := by
    omega
  have hones : ones value = ones (value % 2 ^ 8) + (ones (value / 2 ^ 8 % 2 ^ 8) +
      (ones (value / 2 ^ 8 / 2 ^ 8 % 2 ^ 8) + ones (value / 2 ^ 8 / 2 ^ 8 / 2 ^ 8))) := by
    conv_lhs => rw [hsplit]
    rw [ones_add_mul_two_pow _ _ _ (Nat.mod_lt _ (by norm_num)),
      ones_add_mul_two_pow _ _ _ (Nat.mod_lt _ (by norm_num)),
      ones_add_mul_two_pow _ _ _ (Nat.mod_lt _ (by norm_num))]
  have hcounts := counts_split value 0x55555555 0x33333333 (by norm_num) (by norm_num)
  rw [counts_split (value / 2 ^ 8) _ _ (by norm_num) (by norm_num),
    counts_split (value / 2 ^ 8 / 2 ^ 8) _ _ (by norm_num) (by norm_num)] at hcounts
  have htop : nibbles (0x33333333 / 2 ^ 8 / 2 ^ 8 / 2 ^ 8)
      (pairs (0x55555555 / 2 ^ 8 / 2 ^ 8 / 2 ^ 8) (value / 2 ^ 8 / 2 ^ 8 / 2 ^ 8)) =
      byteCounts (value / 2 ^ 8 / 2 ^ 8 / 2 ^ 8) := rfl
  rw [htop] at hcounts
  have hbyte0 := byteCounts_eq (Nat.mod_lt value (y := 2 ^ 8) (by norm_num))
  have hbyte1 := byteCounts_eq (Nat.mod_lt (value / 2 ^ 8) (y := 2 ^ 8) (by norm_num))
  have hbyte2 := byteCounts_eq (Nat.mod_lt (value / 2 ^ 8 / 2 ^ 8) (y := 2 ^ 8) (by norm_num))
  have hbyte3 := byteCounts_eq (show value / 2 ^ 8 / 2 ^ 8 / 2 ^ 8 < 2 ^ 8 by omega)
  rw [hones, hcounts]
  have hadd := halves_add ⟨hbyte0.1, hbyte0.2.1, hbyte1.1, hbyte1.2.1, hbyte2.1, hbyte2.2.1,
    hbyte3.1, hbyte3.2.1⟩
  rw [hbyte0.2.2, hbyte1.2.2, hbyte2.2.2, hbyte3.2.2] at hadd
  rw [← hadd, Nat.mod_add_div, Nat.mod_add_div, Nat.mod_add_div, Nat.mod_add_div]

/-! ## The logarithm -/

/-- One when the upper half of a word is not empty. -/
def upper (limit value : ℕ) : ℕ := if value > limit then 1 else 0

/-- The word, halved by a shift when its upper half is not empty. -/
def halve (limit shift value : ℕ) : ℕ := value >>> (upper limit value <<< shift)

/-- One halving takes its share off the logarithm. -/
theorem log_halve (shift limit : ℕ) {value : ℕ} (hlimit : limit + 1 = 2 ^ 2 ^ shift)
    (hlt : value < 2 ^ 2 ^ (shift + 1)) :
    upper limit value ≤ 1 ∧ halve limit shift value < 2 ^ 2 ^ shift ∧
      Nat.log 2 value = 2 ^ shift * upper limit value + Nat.log 2 (halve limit shift value) := by
  have hsquare : (2 : ℕ) ^ 2 ^ (shift + 1) = 2 ^ 2 ^ shift * 2 ^ 2 ^ shift := by
    rw [← pow_add, pow_succ, Nat.mul_two]
  by_cases hle : 2 ^ 2 ^ shift ≤ value
  · have hupper : upper limit value = 1 := if_pos (by omega)
    have hhalve : halve limit shift value = value / 2 ^ 2 ^ shift := by
      rw [halve, hupper, Nat.shiftRight_eq_div_pow, Nat.shiftLeft_eq, Nat.one_mul]
    rw [hupper, hhalve]
    refine ⟨le_refl 1, ?_, ?_⟩
    · rw [Nat.div_lt_iff_lt_mul (by positivity), ← hsquare]
      exact hlt
    · have hlog : 2 ^ shift ≤ Nat.log 2 value := Nat.le_log_of_pow_le (by norm_num) hle
      have hdiv := Nat.log_div_base_pow 2 value (2 ^ shift)
      omega
  · have hupper : upper limit value = 0 := if_neg (by omega)
    have hhalve : halve limit shift value = value := by
      rw [halve, hupper, Nat.zero_shiftLeft, Nat.shiftRight_zero]
    rw [hupper, hhalve]
    exact ⟨Nat.zero_le 1, not_le.mp hle, by rw [Nat.mul_zero, Nat.zero_add]⟩

/-- The shifts of the halvings, put together; of the last two bits one is left. -/
def logarithm (value : ℕ) : ℕ :=
  let s4 := upper 0xffff value
  let value := halve 0xffff 4 value
  let s3 := upper 0xff value
  let value := halve 0xff 3 value
  let s2 := upper 0xf value
  let value := halve 0xf 2 value
  let s1 := upper 0x3 value
  let value := halve 0x3 1 value
  s4 <<< 4 ||| s3 <<< 3 ||| s2 <<< 2 ||| s1 <<< 1 ||| value >>> 1

/-- The bits of a logarithm below 32. -/
theorem join_bits : ∀ s4 ≤ 1, ∀ s3 ≤ 1, ∀ s2 ≤ 1, ∀ s1 ≤ 1, ∀ value < 4,
    s4 <<< 4 ||| s3 <<< 3 ||| s2 <<< 2 ||| s1 <<< 1 ||| value >>> 1 =
      2 ^ 4 * s4 + (2 ^ 3 * s3 + (2 ^ 2 * s2 + (2 ^ 1 * s1 + Nat.log 2 value))) := by
  decide

theorem logarithm_eq {value : ℕ} (hlt : value < 2 ^ 32) : logarithm value = Nat.log 2 value := by
  obtain ⟨hs4, hlt4, hlog4⟩ := log_halve 4 0xffff (by norm_num) hlt
  obtain ⟨hs3, hlt3, hlog3⟩ := log_halve 3 0xff (by norm_num) hlt4
  obtain ⟨hs2, hlt2, hlog2⟩ := log_halve 2 0xf (by norm_num) hlt3
  obtain ⟨hs1, hlt1, hlog1⟩ := log_halve 1 0x3 (by norm_num) hlt2
  rw [hlog4, hlog3, hlog2, hlog1]
  exact join_bits _ hs4 _ hs3 _ hs2 _ hs1 _ hlt1

/-! ## The lowest bit -/

/-- A number has no bit in common with its complement. -/
theorem and_complement {width value : ℕ} (hlt : value < 2 ^ width) :
    value &&& (2 ^ width - (value + 1)) = 0 := by
  apply Nat.eq_of_testBit_eq
  intro index
  rw [Nat.testBit_and, Nat.testBit_two_pow_sub_succ hlt, Nat.zero_testBit]
  cases value.testBit index <;> simp

/-- A word and its negation share the lowest bit only. -/
theorem and_neg {value : ℕ} (hpos : 0 < value) (hlt : value < 2 ^ 32) :
    value &&& (2 ^ 32 - value) = 2 ^ twos value := by
  obtain ⟨odd, hodd⟩ := two_pow_twos_dvd value
  have htwos : twos value < 32 := twos_lt hpos hlt
  have hnot : odd % 2 = 1 := by
    by_contra heven
    have hdvd : 2 ^ (twos value + 1) ∣ value := by
      obtain ⟨half, hhalf⟩ := Nat.dvd_of_mod_eq_zero (show odd % 2 = 0 by omega)
      exact ⟨half, by rw [pow_succ, Nat.mul_assoc, ← hhalf, ← hodd]⟩
    exact absurd ((two_pow_dvd_iff hpos).mp hdvd) (by omega)
  obtain ⟨half, hhalf⟩ : ∃ half, odd = 2 * half + 1 := ⟨odd / 2, by omega⟩
  generalize twos value = exponent at *
  obtain ⟨width, hwidth⟩ : ∃ width, 31 = exponent + width := ⟨31 - exponent, by omega⟩
  have hpow : (2 : ℕ) ^ 32 = 2 ^ exponent * (2 * 2 ^ width) := by
    rw [← pow_succ', ← pow_add]
    congr 1
    omega
  have hhalf_lt : half < 2 ^ width := by
    rw [hodd, hhalf, hpow] at hlt
    have hcancel := lt_of_mul_lt_mul_left hlt (Nat.zero_le _)
    omega
  have hneg : 2 ^ 32 - value = 2 ^ exponent * (2 * (2 ^ width - (half + 1)) + 1) := by
    rw [hpow]
    rw [hodd, hhalf, ← Nat.mul_sub]
    congr 1
    omega
  have hbits : (2 * half + 1) &&& (2 * (2 ^ width - (half + 1)) + 1) = 1 := by
    have hsplit := Nat.and_mod_two_pow (a := 2 * half + 1)
      (b := 2 * (2 ^ width - (half + 1)) + 1) (n := 1)
    have hdiv := Nat.and_div_two_pow (a := 2 * half + 1)
      (b := 2 * (2 ^ width - (half + 1)) + 1) (n := 1)
    have hleft : (2 * half + 1) / 2 ^ 1 = half := by omega
    have hright : (2 * (2 ^ width - (half + 1)) + 1) / 2 ^ 1 = 2 ^ width - (half + 1) := by omega
    rw [hleft, hright, and_complement hhalf_lt] at hdiv
    have hleft' : (2 * half + 1) % 2 ^ 1 = 1 := by omega
    have hright' : (2 * (2 ^ width - (half + 1)) + 1) % 2 ^ 1 = 1 := by omega
    rw [hleft', hright', Nat.and_self] at hsplit
    omega
  rw [hneg]
  rw [hodd, hhalf, Nat.mul_comm (2 ^ exponent), Nat.mul_comm (2 ^ exponent), ← Nat.shiftLeft_eq,
    ← Nat.shiftLeft_eq, ← Nat.shiftLeft_and_distrib, hbits, Nat.shiftLeft_eq, Nat.one_mul]

end Littlefs.BitCounts
