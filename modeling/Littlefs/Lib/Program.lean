import Mathlib.Tactic.Common

/-!
# Inversion rules for state-and-exception programs

Programs are `EStateM` computations whose state survives a failure.  Each rule
says what a successful run of a composed program consists of, so that proofs
take a program apart one step at a time and never unfold the monad.
-/

namespace Littlefs.Program

variable {ε σ α β : Type}

/-- Turn the failures selected by `catches` into values, keeping the state the
failure left behind. -/
def attempt {κ : Type} (catches : ε → Option κ) (program : EStateM ε σ α) :
    EStateM ε σ (Except κ α) := fun state =>
  match program state with
  | .ok value state' => .ok (.ok value) state'
  | .error failure state' =>
      match catches failure with
      | some caught => .ok (.error caught) state'
      | none => .error failure state'

theorem pure_eq_ok {value result : α} {state state' : σ} :
    (pure value : EStateM ε σ α) state = .ok result state' ↔
      value = result ∧ state = state' := by
  change EStateM.Result.ok value state = .ok result state' ↔ _
  constructor
  · intro h
    cases h
    exact ⟨rfl, rfl⟩
  · rintro ⟨rfl, rfl⟩
    rfl

theorem bind_eq_ok {program : EStateM ε σ α} {next : α → EStateM ε σ β}
    {result : β} {state state' : σ} :
    (program >>= next) state = .ok result state' ↔
      ∃ value middle, program state = .ok value middle ∧
        next value middle = .ok result state' := by
  change (match program state with
    | .ok value middle => next value middle
    | .error failure middle => .error failure middle) = _ ↔ _
  cases program state with
  | ok value middle =>
      constructor
      · intro h
        exact ⟨value, middle, rfl, h⟩
      · rintro ⟨_, _, h, hnext⟩
        cases h
        exact hnext
  | error failure middle =>
      constructor
      · intro h
        cases h
      · rintro ⟨_, _, h, _⟩
        cases h

/-- What runs after a success. -/
theorem bind_of_ok {program : EStateM ε σ α} {value : α} {state middle : σ}
    (hrun : program state = .ok value middle) (next : α → EStateM ε σ β) :
    (program >>= next) state = next value middle := by
  change (match program state with
    | .ok value middle => next value middle
    | .error failure middle => .error failure middle) = _
  rw [hrun]

theorem throw_ne_ok {failure : ε} {result : α} {state state' : σ} :
    (throw failure : EStateM ε σ α) state ≠ .ok result state' := by
  intro h
  change EStateM.Result.error failure state = _ at h
  cases h

theorem get_eq_ok {value state state' : σ} :
    (get : EStateM ε σ σ) state = .ok value state' ↔
      value = state ∧ state' = state := by
  change EStateM.Result.ok state state = .ok value state' ↔ _
  constructor
  · intro h
    cases h
    exact ⟨rfl, rfl⟩
  · rintro ⟨rfl, rfl⟩
    rfl

theorem modify_eq_ok {update : σ → σ} {state state' : σ} {result : Unit} :
    (modify update : EStateM ε σ Unit) state = .ok result state' ↔
      state' = update state := by
  change EStateM.Result.ok () (update state) = .ok result state' ↔ _
  constructor
  · intro h
    cases h
    rfl
  · rintro rfl
    rfl

theorem bind_eq_error {program : EStateM ε σ α} {next : α → EStateM ε σ β}
    {failure : ε} {state state' : σ} :
    (program >>= next) state = .error failure state' ↔
      program state = .error failure state' ∨
        ∃ value middle, program state = .ok value middle ∧
          next value middle = .error failure state' := by
  change (match program state with
    | .ok value middle => next value middle
    | .error failure middle => .error failure middle) = _ ↔ _
  cases program state with
  | ok value middle => simp
  | error failure' middle => simp

theorem pure_ne_error {value : α} {failure : ε} {state state' : σ} :
    (pure value : EStateM ε σ α) state ≠ .error failure state' := by
  intro h
  change EStateM.Result.ok value state = _ at h
  cases h

theorem throw_eq_error {failure result : ε} {state state' : σ} :
    (throw failure : EStateM ε σ α) state = .error result state' ↔
      failure = result ∧ state = state' := by
  change EStateM.Result.error failure state = .error result state' ↔ _
  simp

theorem attempt_eq_ok_ok {κ : Type} {catches : ε → Option κ}
    {program : EStateM ε σ α} {value : α} {state state' : σ} :
    attempt catches program state = .ok (.ok value) state' ↔
      program state = .ok value state' := by
  unfold attempt
  cases program state with
  | ok result middle => simp
  | error failure middle =>
      dsimp only
      split <;> simp

theorem attempt_eq_ok_error {κ : Type} {catches : ε → Option κ}
    {program : EStateM ε σ α} {caught : κ} {state state' : σ} :
    attempt catches program state = .ok (.error caught) state' ↔
      ∃ failure, program state = .error failure state' ∧
        catches failure = some caught := by
  unfold attempt
  cases program state with
  | ok result middle => simp
  | error failure middle =>
      dsimp only
      split
      · rename_i value hcatch
        constructor
        · intro h
          cases h
          exact ⟨failure, rfl, hcatch⟩
        · rintro ⟨_, h, hvalue⟩
          cases h
          rw [hcatch] at hvalue
          cases hvalue
          rfl
      · rename_i hcatch
        constructor
        · intro h
          cases h
        · rintro ⟨_, h, hvalue⟩
          cases h
          rw [hcatch] at hvalue
          cases hvalue

end Littlefs.Program
