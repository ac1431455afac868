import Mathlib.Tactic

/-!
# Checked words

Arithmetic on 32-bit words that fails where the machine would overflow.
-/

namespace Littlefs.Checked

def add (a b : ℕ) : Option ℕ := if a + b < 2 ^ 32 then some (a + b) else none

def sub (a b : ℕ) : Option ℕ := if b ≤ a then some (a - b) else none

def mul (a b : ℕ) : Option ℕ := if a * b < 2 ^ 32 then some (a * b) else none

def div (a b : ℕ) : Option ℕ := if b = 0 then none else some (a / b)

variable {a b : ℕ}

theorem add_eq (hlt : a + b < 2 ^ 32) : add a b = some (a + b) := if_pos hlt

theorem sub_eq (hle : b ≤ a) : sub a b = some (a - b) := if_pos hle

theorem mul_eq (hlt : a * b < 2 ^ 32) : mul a b = some (a * b) := if_pos hlt

theorem div_eq (hne : b ≠ 0) : div a b = some (a / b) := if_neg hne

end Littlefs.Checked
