import Mathlib.Order.WellFounded
import Mathlib.Tactic

/-!
# Machines that step until they halt

A machine is a function that gives the next state or a result.  An invariant with
a rank that goes down at every step makes every run end.
-/

namespace Littlefs.Machines

variable {α β γ : Type*}

def run (step : α → α ⊕ β) : ℕ → α → Option β
  | 0, _ => none
  | fuel + 1, state =>
      match step state with
      | .inl next => run step fuel next
      | .inr result => some result

inductive Reaches (step : α → α ⊕ β) (start : α) : α → Prop
  | start : Reaches step start start
  | step {state next : α} (hreaches : Reaches step start state) (hstep : step state = .inl next) :
      Reaches step start next

variable {step : α → α ⊕ β} {Inv : α → Prop} {start state : α}

/-- What every step keeps holds of every state reached. -/
theorem Reaches.keeps (hkeeps : ∀ state next, Inv state → step state = .inl next → Inv next)
    (hreaches : Reaches step start state) (hstart : Inv start) : Inv state := by
  induction hreaches with
  | start => exact hstart
  | step hreaches hstep ih => exact hkeeps _ _ ih hstep

/-- What the next state reaches. -/
theorem Reaches.head {next : α} (hreaches : Reaches step next state)
    (hstep : step start = .inl next) : Reaches step start state := by
  induction hreaches with
  | start => exact .step .start hstep
  | step _ hlast ih => exact .step ih hlast

/-- What is reached is the start, or is reached from the next state. -/
theorem Reaches.cases_head (hreaches : Reaches step start state) :
    state = start ∨ ∃ next, step start = .inl next ∧ Reaches step next state := by
  induction hreaches with
  | start => exact Or.inl rfl
  | step _ hlast ih =>
      obtain rfl | ⟨next, hstep, hrest⟩ := ih
      · exact Or.inr ⟨_, hlast, .start⟩
      · exact Or.inr ⟨next, hstep, .step hrest hlast⟩

/-- What every step keeps gives what it says of the result. -/
theorem run_keeps {Post : β → Prop} {fuel : ℕ} {result : β}
    (hkeeps : ∀ state next, Inv state → step state = .inl next → Inv next)
    (hhalts : ∀ state result, Inv state → step state = .inr result → Post result)
    (hstart : Inv start) (hrun : run step fuel start = some result) : Post result := by
  induction fuel generalizing start with
  | zero => cases hrun
  | succ fuel ih =>
      rw [run] at hrun
      cases hstep : step start with
      | inl next =>
          rw [hstep] at hrun
          exact ih (hkeeps start next hstart hstep) hrun
      | inr value =>
          rw [hstep] at hrun
          cases hrun
          exact hhalts start _ hstart hstep

/-- A rank that goes down at every step makes the run end. -/
theorem run_ends {less : γ → γ → Prop} (hwf : WellFounded less) (rank : α → γ)
    (hsteps : ∀ state next, Inv state → step state = .inl next →
      Inv next ∧ less (rank next) (rank state))
    (hstart : Inv start) : ∃ fuel result, run step fuel start = some result := by
  induction hrank : rank start using hwf.induction generalizing start with
  | _ value ih =>
      cases hstep : step start with
      | inr result => exact ⟨1, result, by rw [run, hstep]⟩
      | inl next =>
          obtain ⟨hnext, hlt⟩ := hsteps start next hstart hstep
          rw [hrank] at hlt
          obtain ⟨fuel, result, hrun⟩ := ih (rank next) hlt hnext rfl
          exact ⟨fuel + 1, result, by rw [run, hstep]; exact hrun⟩

end Littlefs.Machines
