import Mathlib.Data.List.Basic
import Mathlib.Data.Option.Basic
import Mathlib.Tactic.Common

/-!
# Cancelling moves

A word of moves pushes values on a stack and pops them again.  What is left of it on
the stack is its normal form.  A value that is pushed is popped where the count of
values above it, itself included, comes down to zero, so a scan with a counter can tell
whether it is part of the normal form.
-/

namespace Littlefs.Normalising

variable {α : Type}

inductive Move (α : Type)
  | push (value : α)
  | pop
  deriving DecidableEq, Repr

/-- What is left of a word on the stack, the first value in front; `none` where a pop finds
it empty. -/
def normalise : List α → List (Move α) → Option (List α)
  | stack, [] => some stack.reverse
  | stack, .push value :: word => normalise (value :: stack) word
  | [], .pop :: _ => none
  | _ :: stack, .pop :: word => normalise stack word

/-- The rest of a word behind the pop that takes the last of `depth + 1` values. -/
def closing : ℕ → List (Move α) → Option (List (Move α))
  | _, [] => none
  | depth, .push _ :: word => closing (depth + 1) word
  | 0, .pop :: word => some word
  | depth + 1, .pop :: word => closing depth word

variable {top stack : List α} {value : α} {word rest : List (Move α)} {depth : ℕ}

/-- Values that are popped in the end have never been there. -/
theorem normalise_of_closing (hclosing : closing top.length word = some rest) :
    normalise (top ++ value :: stack) word = normalise stack rest := by
  induction word generalizing top with
  | nil => simp [closing] at hclosing
  | cons move word ih =>
      cases move with
      | push other =>
          rw [normalise, ← List.cons_append]
          exact ih hclosing
      | pop =>
          cases top with
          | nil =>
              rw [List.length_nil, closing] at hclosing
              injection hclosing with hclosing
              rw [List.nil_append, normalise, hclosing]
          | cons other top =>
              rw [List.cons_append, normalise]
              exact ih hclosing

/-- A value that is never popped stays below what the word leaves. -/
theorem normalise_of_closing_none (hclosing : closing top.length word = none) :
    normalise (top ++ value :: stack) word =
      (normalise top word).map ((value :: stack).reverse ++ ·) := by
  induction word generalizing top with
  | nil => simp [normalise]
  | cons move word ih =>
      cases move with
      | push other =>
          rw [normalise, normalise, ← List.cons_append]
          exact ih hclosing
      | pop =>
          cases top with
          | nil => simp [closing] at hclosing
          | cons other top =>
              rw [List.cons_append, normalise, normalise]
              exact ih hclosing

theorem isSome_normalise (hclosing : closing top.length word = none) :
    (normalise top word).isSome := by
  induction word generalizing top with
  | nil => rfl
  | cons move word ih =>
      cases move with
      | push other =>
          rw [normalise]
          exact ih hclosing
      | pop =>
          cases top with
          | nil => simp [closing] at hclosing
          | cons other top =>
              rw [normalise]
              exact ih hclosing

/-- Only values that are pushed are left. -/
theorem mem_of_normalise {values : List α} (hvalues : normalise stack word = some values)
    (hmem : value ∈ values) : value ∈ stack ∨ Move.push value ∈ word := by
  induction word generalizing stack with
  | nil =>
      rw [normalise] at hvalues
      injection hvalues with hvalues
      rw [← hvalues, List.mem_reverse] at hmem
      exact Or.inl hmem
  | cons move word ih =>
      cases move with
      | push other =>
          rw [normalise] at hvalues
          obtain hstack | hword := ih hvalues
          · obtain rfl | hstack := List.mem_cons.mp hstack
            · exact Or.inr List.mem_cons_self
            · exact Or.inl hstack
          · exact Or.inr (List.mem_cons_of_mem _ hword)
      | pop =>
          cases stack with
          | nil => cases hvalues
          | cons other stack =>
              rw [normalise] at hvalues
              obtain hstack | hword := ih hvalues
              · exact Or.inl (List.mem_cons_of_mem _ hstack)
              · exact Or.inr (List.mem_cons_of_mem _ hword)

/-- The first value is dropped with all that is pushed above it, or is the first of the
normal form. -/
theorem normalise_push_of_some (hclosing : closing 0 word = some rest) :
    normalise [] (.push value :: word) = normalise [] rest := by
  have hempty : closing ([] : List α).length word = some rest := hclosing
  rw [normalise]
  exact normalise_of_closing hempty

theorem normalise_push_of_none (value : α) (hclosing : closing 0 word = none) :
    ∃ values, normalise [] word = some values ∧
      normalise [] (.push value :: word) = some (value :: values) := by
  have hempty : closing ([] : List α).length word = none := hclosing
  obtain ⟨values, hvalues⟩ := Option.isSome_iff_exists.mp (isSome_normalise hempty)
  refine ⟨values, hvalues, ?_⟩
  have hpush : normalise ([] ++ [value]) word = (normalise [] word).map ([value].reverse ++ ·) :=
    normalise_of_closing_none hempty
  rw [normalise]
  exact hpush.trans (by rw [hvalues]; rfl)

end Littlefs.Normalising
