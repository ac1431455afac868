import Littlefs.Lib.Program

/-!
# Programs that leave part of the state alone

A program commutes with a change `f` of the state when it runs from `f state` as it does
from `state`, and leaves what that leaves, changed by `f`.  So it neither reads nor writes
what `f` changes.
-/

namespace Littlefs.Program

variable {ε σ α β : Type}

/-- The result of a run, with its state changed. -/
def mapState (f : σ → σ) : EStateM.Result ε σ α → EStateM.Result ε σ α
  | .ok value state => .ok value (f state)
  | .error failure state => .error failure (f state)

def Commutes (f : σ → σ) (program : EStateM ε σ α) : Prop :=
  ∀ state, program (f state) = mapState f (program state)

namespace Commutes

variable {f : σ → σ} {program other : EStateM ε σ α}

theorem pure (value : α) : Commutes f (Pure.pure value : EStateM ε σ α) := fun _ => rfl

theorem throw (failure : ε) : Commutes f (MonadExcept.throw failure : EStateM ε σ α) :=
  fun _ => rfl

theorem of_ok (hprogram : Commutes f program) {value : α} {state state' : σ}
    (hrun : program state = .ok value state') : program (f state) = .ok value (f state') := by
  rw [hprogram state, hrun]
  rfl

theorem of_error (hprogram : Commutes f program) {failure : ε} {state state' : σ}
    (hrun : program state = .error failure state') :
    program (f state) = .error failure (f state') := by
  rw [hprogram state, hrun]
  rfl

theorem bind {next : α → EStateM ε σ β} (hprogram : Commutes f program)
    (hnext : ∀ value, Commutes f (next value)) : Commutes f (program >>= next) := by
  intro state
  cases hrun : program state with
  | ok value middle =>
      rw [bind_of_ok hrun, bind_of_ok (hprogram.of_ok hrun)]
      exact hnext value middle
  | error failure middle =>
      rw [bind_eq_error.mpr (Or.inl hrun), bind_eq_error.mpr (Or.inl (hprogram.of_error hrun))]
      rfl

/-- A program may ask for the state when it makes no use of what `f` changes. -/
theorem get_bind {next : σ → EStateM ε σ α} (hsame : ∀ state, next (f state) = next state)
    (hnext : ∀ state, Commutes f (next state)) : Commutes f (get >>= next) := by
  intro state
  calc (get >>= next) (f state) = next (f state) (f state) := rfl
    _ = next state (f state) := by rw [hsame]
    _ = mapState f (next state state) := hnext state state
    _ = mapState f ((get >>= next) state) := rfl

theorem ite {condition : Prop} [Decidable condition] (hyes : Commutes f program)
    (hno : Commutes f other) : Commutes f (if condition then program else other) := by
  split
  · exact hyes
  · exact hno

theorem attempt {κ : Type} {catches : ε → Option κ} (hprogram : Commutes f program) :
    Commutes f (attempt catches program) := by
  intro state
  unfold Program.attempt
  cases hrun : program state with
  | ok value middle =>
      rw [hprogram.of_ok hrun]
      rfl
  | error failure middle =>
      rw [hprogram.of_error hrun]
      dsimp only
      cases catches failure with
      | none => rfl
      | some caught => rfl

theorem foldlM {γ : Type} {step : α → γ → EStateM ε σ α} (inputs : List γ)
    (hstep : ∀ value input, Commutes f (step value input)) (value : α) :
    Commutes f (inputs.foldlM step value) := by
  induction inputs generalizing value with
  | nil => exact pure value
  | cons input rest ih =>
      rw [List.foldlM_cons]
      exact bind (hstep value input) ih

end Commutes

end Littlefs.Program
