import Littlefs.Lib.Outcome

/-!
# Programs that keep an invariant

`Maintains inv fails program post` says that `program`, run where `inv` holds, ends where it
holds again: with a value in `post`, or with a failure in `fails`.
-/

namespace Littlefs.Program

variable {ε σ α β : Type} {inv : σ → Prop} {fails : ε → Prop}

def Maintains (inv : σ → Prop) (fails : ε → Prop) (program : EStateM ε σ α) (post : α → Prop) :
    Prop :=
  ∀ state, inv state → Outcome program (fun value state' => post value ∧ inv state')
    (fun failure state' => fails failure ∧ inv state') state

namespace Maintains

variable {post : α → Prop} {program other : EStateM ε σ α}

theorem pure {value : α} (hpost : post value) : Maintains inv fails (Pure.pure value) post :=
  fun _ hinv => ⟨hpost, hinv⟩

theorem throw {failure : ε} (hfails : fails failure) :
    Maintains inv fails (MonadExcept.throw failure) post :=
  fun _ hinv => ⟨hfails, hinv⟩

theorem get : Maintains inv fails (MonadState.get : EStateM ε σ σ) inv := fun _ hinv => ⟨hinv, hinv⟩

theorem modify {update : σ → σ} (hupdate : ∀ state, inv state → inv (update state)) :
    Maintains inv fails (modify update : EStateM ε σ PUnit) fun _ => True :=
  fun state hinv => ⟨trivial, hupdate state hinv⟩

theorem imp {post' : α → Prop} (hprogram : Maintains inv fails program post)
    (hpost : ∀ value, post value → post' value) : Maintains inv fails program post' :=
  fun state hinv => (hprogram state hinv).imp
    (fun value _ hvalue => ⟨hpost value hvalue.1, hvalue.2⟩) fun _ _ hfails => hfails

theorem bind {middle : β → Prop} {first : EStateM ε σ β} {next : β → EStateM ε σ α}
    (hfirst : Maintains inv fails first middle)
    (hnext : ∀ value, middle value → Maintains inv fails (next value) post) :
    Maintains inv fails (first >>= next) post := by
  intro state hinv
  rw [outcome_bind]
  exact (hfirst state hinv).imp
    (fun value state' hvalue => hnext value hvalue.1 state' hvalue.2) fun _ _ hfails => hfails

theorem ite {condition : Prop} [Decidable condition]
    (hyes : condition → Maintains inv fails program post)
    (hno : ¬condition → Maintains inv fails other post) :
    Maintains inv fails (if condition then program else other) post := by
  split
  · exact hyes ‹_›
  · exact hno ‹_›

/-- A caught failure is a value. -/
theorem attempt {κ : Type} {catches : ε → Option κ} (hprogram : Maintains inv fails program post) :
    Maintains inv fails (attempt catches program)
      fun caught => ∀ value, caught = .ok value → post value := by
  intro state hinv
  rw [outcome_attempt]
  apply (hprogram state hinv).imp
  · intro value state' hvalue
    exact ⟨fun value' heq => (Except.ok.inj heq) ▸ hvalue.1, hvalue.2⟩
  · intro failure state' hfails
    cases catches failure with
    | some caught => exact ⟨fun value heq => (nomatch heq), hfails.2⟩
    | none => exact hfails

end Maintains

end Littlefs.Program
