import Mathlib.Data.Nat.Log
import Mathlib.NumberTheory.Padics.PadicVal.Basic
import Mathlib.Tactic

/-!
# Reversed skip lists

Nodes are numbered from zero and node `n > 0` begins with one pointer for every
power of two that divides `n`; what is left of a node holds data.  A position in
the data is found by one division, corrected by the number of bits set in the
quotient, since the pointers before node `n` are counted by those bits.
-/

namespace Littlefs.SkipLists

/-! ## Bits -/

/-- The number of bits set in `n`. -/
def ones (n : ℕ) : ℕ := (Nat.digits 2 n).sum

/-- The exponent of two in `n`. -/
def twos (n : ℕ) : ℕ := padicValNat 2 n

@[simp]
theorem ones_zero : ones 0 = 0 := by simp [ones]

theorem ones_div_two (n : ℕ) : ones n = n % 2 + ones (n / 2) := by
  obtain rfl | hpos := Nat.eq_zero_or_pos n
  · simp
  · rw [ones, Nat.digits_def' (by norm_num) hpos, List.sum_cons, ones]

theorem ones_add_mul_two_pow (low high width : ℕ) (hlow : low < 2 ^ width) :
    ones (low + 2 ^ width * high) = ones low + ones high := by
  induction width generalizing low with
  | zero =>
      have hzero : low = 0 := by simpa using hlow
      simp [hzero]
  | succ width ih =>
      have hhalf : low / 2 < 2 ^ width := by
        rw [pow_succ] at hlow
        omega
      have hmod : (low + 2 ^ (width + 1) * high) % 2 = low % 2 := by
        rw [pow_succ, Nat.mul_comm (2 ^ width), Nat.mul_assoc, Nat.add_mul_mod_self_left]
      have hdiv : (low + 2 ^ (width + 1) * high) / 2 = low / 2 + 2 ^ width * high := by
        rw [pow_succ, Nat.mul_comm (2 ^ width), Nat.mul_assoc,
          Nat.add_mul_div_left _ _ (by norm_num)]
      rw [ones_div_two, hmod, hdiv, ih _ hhalf, ones_div_two low, Nat.add_assoc]

theorem ones_le_of_lt {n width : ℕ} (hlt : n < 2 ^ width) : ones n ≤ width := by
  induction width generalizing n with
  | zero =>
      have hzero : n = 0 := by simpa using hlt
      simp [hzero]
  | succ width ih =>
      have hhalf : ones (n / 2) ≤ width := by
        apply ih
        rw [pow_succ] at hlt
        omega
      rw [ones_div_two]
      omega

theorem ones_le_self (n : ℕ) : ones n ≤ n := Nat.digit_sum_le 2 n

/-- Counting down, the lowest bit is exchanged for the bits below it. -/
theorem ones_pred {n : ℕ} (hpos : 0 < n) : ones (n - 1) + 1 = ones n + twos n := by
  have hfactorial := fun k => sub_one_mul_padicValNat_factorial (p := 2) k
  obtain ⟨k, rfl⟩ := Nat.exists_eq_add_of_lt hpos
  have hsucc := hfactorial (k + 1)
  have hself := hfactorial k
  have hmul : padicValNat 2 (k + 1).factorial = twos (k + 1) + padicValNat 2 k.factorial := by
    rw [Nat.factorial_succ, padicValNat.mul (by omega) (Nat.factorial_ne_zero k), twos]
  have hle := ones_le_self k
  have hle' := ones_le_self (k + 1)
  simp only [zero_add, Nat.add_sub_cancel, ones] at *
  omega

theorem two_pow_twos_dvd (n : ℕ) : 2 ^ twos n ∣ n := pow_padicValNat_dvd

theorem two_pow_dvd_iff {n k : ℕ} (hpos : 0 < n) : 2 ^ k ∣ n ↔ k ≤ twos n :=
  padicValNat_dvd_iff_le hpos.ne'

theorem two_pow_twos_le {n : ℕ} (hpos : 0 < n) : 2 ^ twos n ≤ n :=
  Nat.le_of_dvd hpos (two_pow_twos_dvd n)

theorem twos_lt {n width : ℕ} (hpos : 0 < n) (hlt : n < 2 ^ width) : twos n < width := by
  have hpow := lt_of_le_of_lt (two_pow_twos_le hpos) hlt
  exact (Nat.pow_lt_pow_iff_right (by norm_num)).mp hpow

/-! ## Positions -/

/-- The pointers that node `n` begins with. -/
def pointers (n : ℕ) : ℕ := if n = 0 then 0 else twos n + 1

@[simp]
theorem pointers_zero : pointers 0 = 0 := rfl

theorem pointers_of_pos {n : ℕ} (hpos : 0 < n) : pointers n = twos n + 1 := by
  rw [pointers, if_neg hpos.ne']

theorem lt_pointers {n k : ℕ} (hk : k < pointers n) : 0 < n ∧ k ≤ twos n := by
  obtain rfl | hpos := Nat.eq_zero_or_pos n
  · exact absurd hk (Nat.not_lt_zero k)
  · rw [pointers_of_pos hpos] at hk
    exact ⟨hpos, Nat.lt_succ_iff.mp hk⟩

/-- Sizes of a pointer and of a node, and a number of nodes in which the pointers
leave room for data. -/
structure Layout where
  word : ℕ
  node : ℕ
  count : ℕ
  room : ∀ index < count, word * pointers index < node

/-- The data of node `index` sits at `off`, behind the pointers. -/
structure Layout.Place (layout : Layout) (index off : ℕ) : Prop where
  index_lt : index < layout.count
  le_off : layout.word * pointers index ≤ off
  off_lt : off < layout.node

namespace Layout

variable {layout : Layout} {index index' off off' position : ℕ}

/-- The position of the first byte of data of a node. -/
def start (layout : Layout) : ℕ → ℕ
  | 0 => 0
  | index + 1 => layout.start index + (layout.node - layout.word * pointers index)

/-- Where a position is. -/
structure At (layout : Layout) (position index off : ℕ) : Prop extends layout.Place index off where
  eq : position + layout.word * pointers index = layout.start index + off

/-- The place behind a place. -/
def next (layout : Layout) (place : ℕ × ℕ) : ℕ × ℕ :=
  if place.2 + 1 < layout.node then (place.1, place.2 + 1)
  else (place.1 + 1, layout.word * pointers (place.1 + 1))

/-- The closed form of the sum of the data before a node. -/
theorem start_eq (hindex : index ≤ layout.count) :
    layout.start index + 2 * layout.word * index =
      layout.node * index + layout.word * ones index + layout.word * pointers index := by
  induction index with
  | zero => simp [start]
  | succ index ih =>
      have hroom := layout.room index hindex
      have hones : ones index + 1 = ones (index + 1) + twos (index + 1) :=
        ones_pred (Nat.succ_pos index)
      have hword : layout.word * ones index + 2 * layout.word =
          layout.word * ones (index + 1) + layout.word * (twos (index + 1) + 1) := by
        rw [Nat.mul_comm 2, ← Nat.mul_add, ← Nat.mul_add, ← Nat.add_assoc, ← hones]
      have hprevious := ih (by omega)
      have hpointers : pointers (index + 1) = twos (index + 1) + 1 :=
        pointers_of_pos (Nat.succ_pos index)
      rw [start, hpointers, Nat.mul_succ, Nat.mul_succ]
      omega

theorem start_succ (hindex : index < layout.count) :
    layout.start (index + 1) + layout.word * pointers index = layout.start index + layout.node := by
  have hroom := layout.room index hindex
  rw [start]
  omega

theorem start_lt_succ (hindex : index < layout.count) :
    layout.start index < layout.start (index + 1) := by
  have hroom := layout.room index hindex
  rw [start]
  omega

theorem start_mono (layout : Layout) {index index' : ℕ} (hle : index ≤ index') :
    layout.start index ≤ layout.start index' := by
  induction hle with
  | refl => exact le_refl _
  | step hle ih => exact le_trans ih (Nat.le_add_right _ _)

namespace At

variable (hat : layout.At position index off)

include hat

/-- A position, from the number of its node and the offset inside it. -/
theorem position_eq : position + 2 * layout.word * index =
    layout.node * index + layout.word * ones index + off := by
  have hstart := start_eq hat.index_lt.le
  have heq := hat.eq
  omega

theorem start_le : layout.start index ≤ position := by
  have heq := hat.eq
  have hle := hat.le_off
  omega

theorem lt_start : position < layout.start (index + 1) := by
  have heq := hat.eq
  have hlt := hat.off_lt
  have hsucc := start_succ hat.index_lt
  omega

theorem unique (hat' : layout.At position index' off') : index = index' ∧ off = off' := by
  have hindex : index = index' := by
    by_contra hne
    obtain hlt | hlt := Nat.lt_or_gt_of_ne hne
    · have hmono := start_mono layout (Nat.succ_le_of_lt hlt)
      exact absurd (hat'.start_le) (not_le.mpr (lt_of_lt_of_le hat.lt_start hmono))
    · have hmono := start_mono layout (Nat.succ_le_of_lt hlt)
      exact absurd (hat.start_le) (not_le.mpr (lt_of_lt_of_le hat'.lt_start hmono))
  subst hindex
  have heq := hat.eq
  have heq' := hat'.eq
  exact ⟨rfl, by omega⟩

theorem index_mono {position' : ℕ} (hat' : layout.At position' index' off')
    (hle : position ≤ position') : index ≤ index' := by
  by_contra hlt
  have hmono : layout.start (index' + 1) ≤ layout.start index := start_mono layout (not_le.mp hlt)
  have hbehind := hat'.lt_start
  have hstart := hat.start_le
  omega

/-- Two positions do not share a place. -/
theorem inj {position' : ℕ} (hat' : layout.At position' index off) : position = position' := by
  have heq := hat.eq
  have heq' := hat'.eq
  omega

theorem succ (hcount : index + 1 < layout.count) :
    layout.At (position + 1) (layout.next (index, off)).1 (layout.next (index, off)).2 := by
  have heq := hat.eq
  have hlt := hat.off_lt
  have hle := hat.le_off
  have hsucc := start_succ hat.index_lt
  by_cases hlast : off + 1 < layout.node
  · rw [next, if_pos hlast]
    dsimp only
    exact { index_lt := hat.index_lt, le_off := by omega, off_lt := hlast, eq := by omega }
  · rw [next, if_neg hlast]
    dsimp only
    exact { index_lt := hcount, le_off := le_refl _, off_lt := layout.room _ hcount,
            eq := by omega }

end At

/-- What one division can use of a node: the data, and two pointers less. -/
def stride (layout : Layout) : ℕ := layout.node - 2 * layout.word

/-- The share of the pointers in front of node `index` in a position. -/
def skew (layout : Layout) (index : ℕ) : ℕ := layout.word * (ones index + 2)

/-- The bits of a quotient never take a whole node off a position. -/
def Divides (layout : Layout) : Prop := ∀ index < layout.count, layout.skew index < layout.stride

namespace At

variable (hat : layout.At position index off) (hdivides : layout.Divides)

include hat hdivides

theorem eq_stride : position = layout.stride * index + layout.word * ones index + off := by
  have hposition := hat.position_eq
  have hskew := hdivides index hat.index_lt
  have hnode : layout.node = layout.stride + 2 * layout.word := by
    rw [stride] at *
    omega
  rw [hnode, Nat.add_mul] at hposition
  omega

theorem off_lt_stride : off < layout.stride + 2 * layout.word := by
  have hskew := hdivides index hat.index_lt
  have hlt := hat.off_lt
  rw [stride] at *
  omega

/-- The quotient is the number of the node, or one more. -/
theorem div_stride : position / layout.stride = index ∨ position / layout.stride = index + 1 := by
  have heq := hat.eq_stride hdivides
  have hlt := hat.off_lt_stride hdivides
  have hskew := hdivides index hat.index_lt
  rw [skew, Nat.mul_add] at hskew
  have hmul : layout.stride * (index + 2) = layout.stride * index + 2 * layout.stride := by
    rw [Nat.mul_add, Nat.mul_comm layout.stride 2]
  have hlower : index ≤ position / layout.stride := by
    rw [Nat.le_div_iff_mul_le (by omega), Nat.mul_comm]
    omega
  have hupper : position / layout.stride < index + 2 := by
    rw [Nat.div_lt_iff_lt_mul (by omega), Nat.mul_comm]
    omega
  omega

/-- The corrected quotient is the number of the node. -/
theorem corrected_div (hquotient : position / layout.stride ≠ 0) :
    layout.skew (position / layout.stride - 1) ≤ position ∧
      (position - layout.skew (position / layout.stride - 1)) / layout.stride = index := by
  have heq := hat.eq_stride hdivides
  have hlt := hat.off_lt_stride hdivides
  have hskew := hdivides index hat.index_lt
  have hsucc : layout.stride * (index + 1) = layout.stride * index + layout.stride :=
    Nat.mul_succ _ _
  obtain hexact | hover := hat.div_stride hdivides
  · -- the offset covers the pointers of the node
    have hpos : 0 < index := by omega
    have hle := hat.le_off
    have hones : layout.skew (index - 1) =
        layout.word * ones index + layout.word * pointers index := by
      have hpred := ones_pred hpos
      rw [skew, pointers_of_pos hpos, ← Nat.mul_add, ← Nat.add_assoc, ← hpred]
    have hupper : position < layout.stride * (index + 1) := by
      rw [Nat.mul_comm, ← Nat.div_lt_iff_lt_mul (by omega)]
      omega
    rw [hexact, hones]
    refine ⟨by omega, ?_⟩
    apply Nat.div_eq_of_lt_le
    · rw [Nat.mul_comm index]
      omega
    · rw [Nat.mul_comm (index + 1)]
      omega
  · have hlower : layout.stride * (index + 1) ≤ position := by
      rw [Nat.mul_comm, ← Nat.le_div_iff_mul_le (by omega)]
      omega
    rw [hover, Nat.add_sub_cancel]
    have hself : layout.skew index = layout.word * ones index + 2 * layout.word := by
      rw [skew, Nat.mul_add, Nat.mul_comm 2]
    refine ⟨by omega, ?_⟩
    apply Nat.div_eq_of_lt_le
    · rw [Nat.mul_comm index]
      omega
    · rw [Nat.mul_comm (index + 1)]
      omega

end At

theorem at_zero (hcount : 0 < layout.count) : layout.At 0 0 0 := by
  have hroom := layout.room 0 hcount
  exact { index_lt := hcount, le_off := by simp, off_lt := by omega, eq := by simp [start] }

/-- Every position in front of the last node has a place. -/
theorem exists_at (hcount : index < layout.count) (hlt : position < layout.start index) :
    ∃ index' off, index' < index ∧ layout.At position index' off := by
  induction index with
  | zero => exact absurd hlt (Nat.not_lt_zero position)
  | succ index ih =>
      obtain hbefore | hinside := Nat.lt_or_ge position (layout.start index)
      · obtain ⟨index', off, hindex', hat⟩ := ih (by omega) hbefore
        exact ⟨index', off, by omega, hat⟩
      · have hsucc := start_succ (show index < layout.count by omega)
        have hroom := layout.room index (by omega)
        refine ⟨index, position - layout.start index + layout.word * pointers index,
          Nat.lt_succ_self index, ?_⟩
        exact { index_lt := by omega, le_off := by omega, off_lt := by omega, eq := by omega }

end Layout

/-! ## The way down -/

/-- The exponent of the jump from node `current` towards node `target`. -/
def jump (current target : ℕ) : ℕ := min (Nat.log 2 (current - target)) (twos current)

section

variable {current target fuel : ℕ}

theorem two_pow_jump_le (hlt : target < current) : 2 ^ jump current target ≤ current - target :=
  calc 2 ^ jump current target ≤ 2 ^ Nat.log 2 (current - target) :=
        Nat.pow_le_pow_right (by norm_num) (Nat.min_le_left _ _)
    _ ≤ current - target := Nat.pow_log_le_self 2 (by omega)

/-- A jump does not pass the target, and it gets closer. -/
theorem jump_closer (hlt : target < current) :
    target ≤ current - 2 ^ jump current target ∧ current - 2 ^ jump current target < current := by
  have hle := two_pow_jump_le hlt
  have hpos : 0 < 2 ^ jump current target := by positivity
  omega

/-- The nodes left on the way from `current` down to `target`, each with the exponent of its
jump. -/
def route (target : ℕ) : ℕ → ℕ → List (ℕ × ℕ)
  | 0, _ => []
  | fuel + 1, current =>
      if current ≤ target then
        []
      else
        (current, jump current target) :: route target fuel (current - 2 ^ jump current target)

/-- Every jump leaves a node above the target through a pointer that the node has, and ends at
the target or above it. -/
theorem route_stops {stop : ℕ × ℕ} (hmem : stop ∈ route target fuel current) :
    target < stop.1 ∧ stop.1 ≤ current ∧ stop.2 ≤ twos stop.1 ∧ target ≤ stop.1 - 2 ^ stop.2 := by
  induction fuel generalizing current with
  | zero => exact absurd hmem List.not_mem_nil
  | succ fuel ih =>
      rw [route] at hmem
      by_cases hle : current ≤ target
      · rw [if_pos hle] at hmem
        exact absurd hmem List.not_mem_nil
      · rw [if_neg hle] at hmem
        have hcloser := jump_closer (not_le.mp hle)
        obtain rfl | hrest := List.mem_cons.mp hmem
        · exact ⟨not_le.mp hle, le_refl _, Nat.min_le_right _ _, hcloser.1⟩
        · obtain ⟨habove, hbelow, htwos, hreach⟩ := ih hrest
          exact ⟨habove, by omega, htwos, hreach⟩

/-- The nodes are left in descending order. -/
theorem route_descends : (route target fuel current).Pairwise fun stop later =>
    later.1 < stop.1 := by
  induction fuel generalizing current with
  | zero => exact List.Pairwise.nil
  | succ fuel ih =>
      rw [route]
      by_cases hle : current ≤ target
      · rw [if_pos hle]
        exact List.Pairwise.nil
      · rw [if_neg hle]
        have hcloser := jump_closer (not_le.mp hle)
        apply List.Pairwise.cons
        · intro later hlater
          have hstop := (route_stops hlater).2.1
          dsimp only
          omega
        · exact ih

end

end Littlefs.SkipLists
