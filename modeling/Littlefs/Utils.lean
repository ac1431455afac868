import Littlefs.Ctz
import Littlefs.Lib.BitCounts
import Littlefs.Lib.Checked

/-!
# Utilities on 32-bit words

The bit tricks of `util.rs` as the machine runs them, with every subtraction and
sum that is not marked as wrapping checked.  On words they agree with the
functions on natural numbers, and with the counts of bits.
-/

namespace Littlefs

open SkipLists BitCounts

/-- `lfs_popc`; `none` stands for an overflow. -/
def lfsPopcChecked (a : ℕ) : Option ℕ := do
  let a ← Checked.sub a ((a >>> 1) &&& 0x55555555)
  let a ← Checked.add (a &&& 0x33333333) ((a >>> 2) &&& 0x33333333)
  return (((((a + (a >>> 4)) % 2 ^ 32) &&& 0x0f0f0f0f) * 0x01010101) % 2 ^ 32) >>> 24

/-- `lfs_npw2`; no operation of it can overflow. -/
def lfsNpw2Word (a : ℕ) : ℕ :=
  let a := (a + (2 ^ 32 - 1)) % 2 ^ 32
  let s4 := if a > 0xffff then 1 else 0
  let a := a >>> (s4 <<< 4)
  let s3 := if a > 0xff then 1 else 0
  let a := a >>> (s3 <<< 3)
  let s2 := if a > 0xf then 1 else 0
  let a := a >>> (s2 <<< 2)
  let s1 := if a > 0x3 then 1 else 0
  let a := a >>> (s1 <<< 1)
  (s4 <<< 4 ||| s3 <<< 3 ||| s2 <<< 2 ||| s1 <<< 1 ||| (a >>> 1)) + 1

/-- `lfs_ctz`; `lfs_npw2` is never zero. -/
def lfsCtzWord (a : ℕ) : ℕ :=
  lfsNpw2Word (((a &&& ((2 ^ 32 - a) % 2 ^ 32)) + 1) % 2 ^ 32) - 1

variable {a : ℕ}

/-! ## Population counts -/

theorem lfsPopc_eq (hlt : a < 2 ^ 32) : lfsPopc a = ones a := total_eq hlt

theorem lfsPopcChecked_eq (a : ℕ) : lfsPopcChecked a = some (lfsPopc a) := by
  have hsub := Checked.sub_eq (shifted_le a 1 0x55555555)
  have hmask : ∀ value : ℕ, value &&& 0x33333333 ≤ 0x33333333 := fun _ => Nat.and_le_right
  have hleft := hmask (a - ((a >>> 1) &&& 0x55555555))
  have hright := hmask ((a - ((a >>> 1) &&& 0x55555555)) >>> 2)
  have hadd := Checked.add_eq (lt_of_le_of_lt (Nat.add_le_add hleft hright) (by norm_num))
  simp only [lfsPopcChecked, hsub, hadd, Option.bind_eq_bind, Option.bind_some, Option.pure_def,
    lfsPopc, Option.some.injEq]
  have hshift : ∀ value : ℕ, value ≤ 0x33333333 + 0x33333333 →
      (value + value >>> 4) % 2 ^ 32 = value + value >>> 4 := by
    intro value hle
    rw [Nat.shiftRight_eq_div_pow]
    omega
  rw [hshift _ (Nat.add_le_add hleft hright)]

/-! ## Powers of two -/

theorem lfsNpw2Word_eq (hpos : 0 < a) (hle : a ≤ 2 ^ 32) : lfsNpw2Word a = lfsNpw2 a := by
  have hpred : (a + (2 ^ 32 - 1)) % 2 ^ 32 = a - 1 := by omega
  have hlog : lfsNpw2Word a = logarithm ((a + (2 ^ 32 - 1)) % 2 ^ 32) + 1 := rfl
  rw [hlog, hpred, logarithm_eq (by omega), lfsNpw2, Nat.log2_eq_log_two]

/-- `lfs_npw2` of a sum with one, less one, is the exponent of the largest power of two. -/
theorem lfsNpw2_succ (a : ℕ) : lfsNpw2 (a + 1) - 1 = Nat.log 2 a := by
  rw [lfsNpw2, Nat.log2_eq_log_two, Nat.add_sub_cancel, Nat.add_sub_cancel]

theorem lfsCtz_eq (hpos : 0 < a) (hlt : a < 2 ^ 32) : lfsCtz a = twos a := by
  have hneg : (2 ^ 32 - a) % 2 ^ 32 = 2 ^ 32 - a := Nat.mod_eq_of_lt (by omega)
  rw [lfsCtz, hneg, and_neg hpos hlt, lfsNpw2_succ, Nat.log_pow (by norm_num)]

theorem lfsCtzWord_eq (hpos : 0 < a) (hlt : a < 2 ^ 32) : lfsCtzWord a = lfsCtz a := by
  have hneg : (2 ^ 32 - a) % 2 ^ 32 = 2 ^ 32 - a := Nat.mod_eq_of_lt (by omega)
  have hone : 1 ≤ 2 ^ twos a := Nat.one_le_two_pow
  have hbit : (2 ^ twos a + 1) % 2 ^ 32 = 2 ^ twos a + 1 := by
    have hexponent := twos_lt hpos hlt
    have hpow : 2 ^ twos a ≤ 2 ^ 31 := Nat.pow_le_pow_right (by norm_num) (by omega)
    omega
  rw [lfsCtzWord, lfsCtz, hneg, and_neg hpos hlt, hbit, lfsNpw2Word_eq (by omega) (by omega)]

end Littlefs
