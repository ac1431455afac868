import Mathlib.Tactic

/-!
# Cyclic redundancy checks bit by bit

A reflected CRC register takes the bits of a message one by one, the least
significant bit of a byte first.  The register moves down one place, and the
polynomial is added where a one falls out.  The update is linear, and it can be
undone when the polynomial has its top bit: messages that differ inside a window no
wider than the register leave different registers.
-/

namespace Littlefs.Crc

variable {w : ℕ} {poly : BitVec w} {bit : Bool} {bits bits' front back : List Bool}

/-- One place down. -/
def step (poly crc : BitVec w) : BitVec w :=
  crc >>> 1 ^^^ if crc.getLsbD 0 then poly else 0

def steps (poly : BitVec w) : ℕ → BitVec w → BitVec w
  | 0, crc => crc
  | count + 1, crc => steps poly count (step poly crc)

def ofBit (bit : Bool) : BitVec w := if bit then 1 else 0

/-- The register after a message. -/
def feed (poly crc : BitVec w) (bits : List Bool) : BitVec w :=
  bits.foldl (fun crc bit => step poly (crc ^^^ ofBit bit)) crc

/-- The bits of a word, the least significant one first. -/
def bitsOf {n : ℕ} (word : BitVec n) : List Bool := (List.range n).map word.getLsbD

/-- A list of bits as a word, the least significant one first. -/
def wordOf : List Bool → BitVec w
  | [] => 0
  | bit :: bits => wordOf bits <<< 1 ^^^ ofBit bit

/-! ## Linearity -/

theorem step_xor (poly a b : BitVec w) : step poly (a ^^^ b) = step poly a ^^^ step poly b := by
  apply BitVec.eq_of_getLsbD_eq
  intro index hindex
  simp only [step, BitVec.getLsbD_xor, BitVec.getLsbD_ushiftRight]
  cases a.getLsbD 0 <;> cases b.getLsbD 0 <;> simp <;> grind

@[simp]
theorem step_zero (poly : BitVec w) : step poly 0 = 0 := by
  simp [step]

theorem steps_xor (poly : BitVec w) (count : ℕ) (a b : BitVec w) :
    steps poly count (a ^^^ b) = steps poly count a ^^^ steps poly count b := by
  induction count generalizing a b with
  | zero => rfl
  | succ count ih => rw [steps, steps, steps, step_xor, ih]

@[simp]
theorem steps_zero (poly : BitVec w) (count : ℕ) : steps poly count 0 = 0 := by
  induction count with
  | zero => rfl
  | succ count ih => rw [steps, step_zero, ih]

theorem steps_add (poly : BitVec w) (count more : ℕ) (crc : BitVec w) :
    steps poly (count + more) crc = steps poly more (steps poly count crc) := by
  induction count generalizing crc with
  | zero => rw [Nat.zero_add, steps]
  | succ count ih => rw [Nat.succ_add, steps, ih, steps]

theorem feed_append (poly crc : BitVec w) (front back : List Bool) :
    feed poly crc (front ++ back) = feed poly (feed poly crc front) back :=
  List.foldl_append

/-! ## A message as a word -/

theorem getLsbD_ofBit (bit : Bool) (index : ℕ) :
    (ofBit bit : BitVec w).getLsbD index = (decide (index = 0 ∧ 0 < w) && bit) := by
  cases bit with
  | false => simp [ofBit]
  | true => simp [ofBit, BitVec.getLsbD_one, Bool.and_comm]

/-- The bits of the word of a list. -/
theorem getLsbD_wordOf (hlength : bits.length ≤ w) (index : ℕ) :
    (wordOf bits : BitVec w).getLsbD index = (bits[index]?).getD false := by
  induction bits generalizing index with
  | nil => simp [wordOf]
  | cons bit bits ih =>
      have hshorter : bits.length ≤ w := Nat.le_of_succ_le hlength
      have hpos : 0 < w := Nat.lt_of_lt_of_le (Nat.succ_pos _) hlength
      rw [wordOf, BitVec.getLsbD_xor, BitVec.getLsbD_shiftLeft, getLsbD_ofBit]
      cases index with
      | zero => simp [hpos]
      | succ index =>
          simp only [Nat.add_sub_cancel, ih hshorter, List.getElem?_cons_succ]
          by_cases hindex : index < bits.length
          · have hlt : index + 1 < w := Nat.lt_of_lt_of_le (Nat.succ_lt_succ hindex) hlength
            simp [hlt]
          · rw [List.getElem?_eq_none (Nat.le_of_not_lt hindex)]
            simp

/-- A word without its top bit that is moved up falls down again. -/
theorem step_shiftLeft {word : BitVec w} (htop : word.getLsbD (w - 1) = false) (hpos : 0 < w) :
    step poly (word <<< 1) = word := by
  apply BitVec.eq_of_getLsbD_eq
  intro index hindex
  have hzero : (word <<< 1).getLsbD 0 = false := by simp
  rw [step, hzero, if_neg Bool.false_ne_true, show (0 : BitVec w) = 0#w from rfl,
    BitVec.xor_zero, BitVec.getLsbD_ushiftRight, BitVec.getLsbD_shiftLeft]
  by_cases hlast : index = w - 1
  · subst hlast
    rw [htop]
    have hout : ¬1 + (w - 1) < w := by omega
    simp [hout]
  · have hin : 1 + index < w := by omega
    simp [hin]

/-- A word moved up through free places falls down again. -/
theorem steps_shiftLeft {word : BitVec w} (count : ℕ)
    (htop : ∀ index, w ≤ index + count → word.getLsbD index = false) :
    steps poly count (word <<< count) = word := by
  induction count with
  | zero => rw [steps, BitVec.shiftLeft_zero]
  | succ count ih =>
      have hlast : (word <<< count).getLsbD (w - 1) = false := by
        rw [BitVec.getLsbD_shiftLeft]
        by_cases hlow : w - 1 < count
        · simp [hlow]
        · rw [htop (w - 1 - count) (by omega)]
          simp
      rw [steps, BitVec.shiftLeft_add]
      by_cases hpos : 0 < w
      · rw [step_shiftLeft hlast hpos]
        exact ih fun index hindex => htop index (by omega)
      · obtain rfl : w = 0 := Nat.eq_zero_of_not_pos hpos
        exact Subsingleton.elim _ _

/-- A message that fits the register can be added to it at once. -/
theorem feed_eq (poly crc : BitVec w) (hlength : bits.length ≤ w) :
    feed poly crc bits = steps poly bits.length (crc ^^^ wordOf bits) := by
  induction bits generalizing crc with
  | nil => simp [feed, steps, wordOf]
  | cons bit bits ih =>
      have hshorter : bits.length ≤ w := Nat.le_of_succ_le hlength
      have hpos : 0 < w := Nat.lt_of_lt_of_le (Nat.succ_pos _) hlength
      have htop : (wordOf bits : BitVec w).getLsbD (w - 1) = false := by
        rw [getLsbD_wordOf hshorter, List.getElem?_eq_none]
        · rfl
        · exact Nat.le_sub_one_of_lt hlength
      calc feed poly crc (bit :: bits)
          = feed poly (step poly (crc ^^^ ofBit bit)) bits := rfl
        _ = steps poly bits.length (step poly (crc ^^^ ofBit bit) ^^^ wordOf bits) :=
            ih _ hshorter
        _ = steps poly bits.length (step poly (crc ^^^ ofBit bit) ^^^
              step poly (wordOf bits <<< 1)) := by rw [step_shiftLeft htop hpos]
        _ = steps poly bits.length (step poly (crc ^^^ wordOf (bit :: bits))) := by
            rw [← step_xor, wordOf, BitVec.xor_assoc, BitVec.xor_comm (ofBit bit)]

theorem wordOf_injective (hlength : bits.length ≤ w) (hsame : bits'.length = bits.length)
    (hword : (wordOf bits : BitVec w) = wordOf bits') : bits = bits' := by
  apply List.ext_getElem? 
  intro index
  by_cases hindex : index < bits.length
  · have hbits := congrArg (fun word => word.getLsbD index) hword
    simp only [getLsbD_wordOf hlength, getLsbD_wordOf (hsame ▸ hlength)] at hbits
    rw [List.getElem?_eq_getElem hindex, List.getElem?_eq_getElem (hsame ▸ hindex)] at hbits ⊢
    exact congrArg some hbits
  · rw [List.getElem?_eq_none (Nat.le_of_not_lt hindex), List.getElem?_eq_none]
    omega

theorem length_bitsOf {n : ℕ} (word : BitVec n) : (bitsOf word).length = n := by
  rw [bitsOf, List.length_map, List.length_range]

theorem wordOf_bitsOf {n : ℕ} (word : BitVec n) (hwidth : n ≤ w) :
    (wordOf (bitsOf word) : BitVec w) = word.setWidth w := by
  apply BitVec.eq_of_getLsbD_eq
  intro index hindex
  rw [getLsbD_wordOf (by rw [length_bitsOf]; exact hwidth), BitVec.getLsbD_setWidth, bitsOf,
    List.getElem?_map]
  by_cases hbit : index < n
  · rw [List.getElem?_range hbit]
    simp [hindex]
  · rw [List.getElem?_eq_none (by rw [List.length_range]; exact Nat.le_of_not_lt hbit),
      BitVec.getLsbD_of_ge word index (Nat.le_of_not_lt hbit)]
    simp

theorem bitsOf_injective {n : ℕ} : Function.Injective (bitsOf (n := n)) := by
  intro a b hbits
  have hword := congrArg (wordOf (w := n)) hbits
  rwa [wordOf_bitsOf a (le_refl n), wordOf_bitsOf b (le_refl n), BitVec.setWidth_eq,
    BitVec.setWidth_eq] at hword

/-! ## Undoing the update -/

/-- The polynomial's top bit tells which bit has fallen out. -/
theorem msb_step (htop : poly.msb = true) (crc : BitVec w) :
    (step poly crc).msb = crc.getLsbD 0 := by
  cases w with
  | zero =>
      rw [BitVec.eq_nil poly] at htop
      cases htop
  | succ w =>
      rw [step, BitVec.msb_xor, BitVec.msb_eq_getLsbD_last (crc >>> 1)]
      cases crc.getLsbD 0 with
      | false => simp
      | true => simp [htop]

theorem step_injective (htop : poly.msb = true) : Function.Injective (step poly) := by
  intro a b hstep
  have hlow : a.getLsbD 0 = b.getLsbD 0 := by rw [← msb_step htop, ← msb_step htop, hstep]
  have hhigh : a >>> 1 = b >>> 1 := by
    rw [step, step, hlow] at hstep
    exact BitVec.xor_left_inj _ |>.mp hstep
  apply BitVec.eq_of_getLsbD_eq
  intro index hindex
  cases index with
  | zero => exact hlow
  | succ index =>
      have hbit := congrArg (fun word => word.getLsbD index) hhigh
      simp only [BitVec.getLsbD_ushiftRight] at hbit
      rwa [Nat.add_comm] at hbit

theorem steps_injective (htop : poly.msb = true) (count : ℕ) :
    Function.Injective (steps poly count) := by
  induction count with
  | zero => exact Function.injective_id
  | succ count ih => exact ih.comp (step_injective htop)

theorem feed_injective (htop : poly.msb = true) (bits : List Bool) :
    Function.Injective fun crc => feed poly crc bits := by
  induction bits with
  | nil => exact Function.injective_id
  | cons bit bits ih =>
      intro a b hfeed
      exact BitVec.xor_left_inj _ |>.mp (step_injective htop (ih hfeed))

/-- Two messages that differ inside a window no wider than the register leave
different registers. -/
theorem feed_ne_of_window (htop : poly.msb = true) (crc : BitVec w) (hne : bits ≠ bits')
    (hlength : bits.length ≤ w) (hsame : bits'.length = bits.length) :
    feed poly crc (front ++ bits ++ back) ≠ feed poly crc (front ++ bits' ++ back) := by
  intro hfeed
  simp only [feed_append] at hfeed
  have hwindow := feed_injective htop back hfeed
  have hlength' : bits'.length ≤ w := by rw [hsame]; exact hlength
  generalize feed poly crc front = start at hwindow
  simp only [feed_eq poly start hlength, feed_eq poly start hlength', hsame] at hwindow
  have hword := BitVec.xor_right_inj _ |>.mp (steps_injective htop _ hwindow)
  exact hne (wordOf_injective hlength hsame hword)

end Littlefs.Crc
