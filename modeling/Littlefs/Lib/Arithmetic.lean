import Littlefs.Lib.Keeping
import Mathlib.Tactic

/-!
# Machine arithmetic in a program

Sums and differences of words of a given width.  `overflow` is the failure that a
build with overflow checks raises; without one the result wraps.
-/

namespace Littlefs.Arithmetic

open Program

variable {ε σ : Type} {inv : σ → Prop} {fails : ε → Prop} {state : σ} {overflow : Option ε}
  {width a b : ℕ}

def wrapped (overflow : Option ε) (value : ℕ) : EStateM ε σ ℕ :=
  match overflow with
  | some failure => throw failure
  | none => pure value

def add (overflow : Option ε) (width a b : ℕ) : EStateM ε σ ℕ :=
  if a + b < 2 ^ width then pure (a + b) else wrapped overflow ((a + b) % 2 ^ width)

def sub (overflow : Option ε) (width a b : ℕ) : EStateM ε σ ℕ :=
  if b ≤ a then pure (a - b) else wrapped overflow ((a + 2 ^ width - b) % 2 ^ width)

theorem keeps_add (hlt : a + b < 2 ^ width) :
    Maintains inv fails (add overflow width a b) (· = a + b) := by
  rw [add, if_pos hlt]
  exact Maintains.pure rfl

theorem keeps_sub (hle : b ≤ a) : Maintains inv fails (sub overflow width a b) (· = a - b) := by
  rw [sub, if_pos hle]
  exact Maintains.pure rfl

theorem wrapped_ok {value value' : ℕ} {state' : σ}
    (hrun : (wrapped overflow value : EStateM ε σ ℕ) state = .ok value' state') :
    value' = value ∧ state' = state := by
  cases overflow with
  | some failure => exact absurd hrun throw_ne_ok
  | none =>
      obtain ⟨rfl, rfl⟩ := pure_eq_ok.mp hrun
      exact ⟨rfl, rfl⟩

theorem add_ok {value : ℕ} {state' : σ}
    (hrun : (add overflow width a b : EStateM ε σ ℕ) state = .ok value state') :
    value = (a + b) % 2 ^ width ∧ state' = state := by
  rw [add] at hrun
  split at hrun
  · rename_i hlt
    obtain ⟨rfl, rfl⟩ := pure_eq_ok.mp hrun
    exact ⟨(Nat.mod_eq_of_lt hlt).symm, rfl⟩
  · exact wrapped_ok hrun

theorem sub_ok {value : ℕ} {state' : σ} (hwidth : a < 2 ^ width)
    (hrun : (sub overflow width a b : EStateM ε σ ℕ) state = .ok value state') :
    value = (a + 2 ^ width - b) % 2 ^ width ∧ state' = state := by
  rw [sub] at hrun
  split at hrun
  · rename_i hle
    obtain ⟨rfl, rfl⟩ := pure_eq_ok.mp hrun
    have hshift : a + 2 ^ width - b = a - b + 2 ^ width := by omega
    refine ⟨?_, rfl⟩
    rw [hshift, Nat.add_mod_right, Nat.mod_eq_of_lt (Nat.lt_of_le_of_lt (Nat.sub_le a b) hwidth)]
  · exact wrapped_ok hrun

end Littlefs.Arithmetic
