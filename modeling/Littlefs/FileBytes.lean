import Littlefs.File
import Mathlib.Data.List.GetD

/-!
# The bytes of a block

Byte by byte, what is behind a write and what a read takes.
-/

namespace Littlefs

variable {data data' bytes : Bytes} {off i n m : ℕ}

theorem getD_slice : (slice data off n).getD i 0 = if i < n then data.getD (off + i) 0 else 0 := by
  rw [slice]
  by_cases hlt : i < n
  · rw [if_pos hlt, List.getD_eq_getElem _ _ (by simpa using hlt), List.getElem_map,
      List.getElem_range]
  · rw [if_neg hlt, List.getD_eq_default _ _ (by simpa using hlt)]

@[simp]
theorem length_slice : (slice data off n).length = n := by
  rw [slice, List.length_map, List.length_range]

theorem slice_congr (hsame : ∀ i < n, data.getD (off + i) 0 = data'.getD (off + i) 0) :
    slice data off n = slice data' off n :=
  List.map_congr_left fun i hi => hsame i (List.mem_range.mp hi)

theorem slice_add : slice data off (n + m) = slice data off n ++ slice data (off + n) m := by
  simp only [slice, List.range_add, List.map_append, List.map_map]
  congr 1
  apply List.map_congr_left
  intro i _
  rw [Function.comp_apply, Nat.add_assoc]

@[simp]
theorem slice_zero : slice data off 0 = [] := rfl

theorem getD_replicate_zero : (List.replicate n 0).getD i 0 = 0 := by
  rw [List.getD_eq_getElem?_getD, List.getElem?_replicate]
  split <;> rfl

/-- A byte behind a write is one of the bytes written or the one that was there. -/
theorem getD_overwrite : (overwrite data off bytes).getD i 0 =
    if off ≤ i ∧ i < off + bytes.length then bytes.getD (i - off) 0 else data.getD i 0 := by
  have hhead : (data.take off ++ List.replicate (off - data.length) 0).length = off := by
    rw [List.length_append, List.length_take, List.length_replicate]
    omega
  rw [overwrite]
  by_cases hbefore : i < off
  · rw [if_neg (by omega), List.append_assoc, List.getD_append _ _ _ _ (by omega)]
    by_cases hdata : i < data.length
    · rw [List.getD_append _ _ _ _ (by rw [List.length_take]; omega),
        List.getD_eq_getElem?_getD, List.getElem?_take_of_lt hbefore, ← List.getD_eq_getElem?_getD]
    · rw [List.getD_append_right _ _ _ _ (by rw [List.length_take]; omega), getD_replicate_zero,
        List.getD_eq_default _ _ (by omega)]
  · by_cases hinside : i < off + bytes.length
    · rw [if_pos ⟨by omega, hinside⟩, List.append_assoc, List.getD_append_right _ _ _ _ (by omega),
        hhead, List.getD_append _ _ _ _ (by omega)]
    · rw [if_neg (by omega), List.getD_append_right _ _ _ _ (by rw [List.length_append]; omega),
        List.length_append, hhead, List.getD_eq_getElem?_getD, List.getElem?_drop,
        ← List.getD_eq_getElem?_getD]
      congr 1
      omega

/-- The word at `off` is made of the four bytes from there. -/
theorem readWord_congr (hsame : ∀ i < 4, data.getD (off + i) 0 = data'.getD (off + i) 0) :
    readWord data off = readWord data' off := by
  have hfirst := hsame 0 (by omega)
  rw [Nat.add_zero] at hfirst
  rw [readWord, readWord, hfirst, hsame 1 (by omega), hsame 2 (by omega), hsame 3 (by omega)]

/-- A word of what was read is a word of the block. -/
theorem readWord_slice_at (hinside : i + 4 ≤ n) :
    readWord (slice data off n) i = readWord data (off + i) := by
  simp only [readWord, getD_slice]
  rw [if_pos (by omega), if_pos (by omega), if_pos (by omega), if_pos (by omega)]
  rfl

end Littlefs
