import Littlefs.Lib.Program
import Mathlib.Data.List.Basic

/-!
# Specifications of both outcomes

`Outcome program post fail state` says that running `program` from `state` ends
in `post` if it succeeds and in `fail` if it throws.  The rules follow the
shape of the program; a specification of a called function is used through
`Outcome.imp`.
-/

namespace Littlefs.Program

variable {ε σ α β : Type}

def Outcome (program : EStateM ε σ α) (post : α → σ → Prop) (fail : ε → σ → Prop)
    (state : σ) : Prop :=
  match program state with
  | .ok value state' => post value state'
  | .error failure state' => fail failure state'

variable {post post' : α → σ → Prop} {fail fail' : ε → σ → Prop} {state : σ}

theorem Outcome.imp {program : EStateM ε σ α} (hprogram : Outcome program post fail state)
    (hpost : ∀ value state', post value state' → post' value state')
    (hfail : ∀ failure state', fail failure state' → fail' failure state') :
    Outcome program post' fail' state := by
  unfold Outcome at *
  cases hrun : program state with
  | ok value state' =>
      rw [hrun] at hprogram
      exact hpost value state' hprogram
  | error failure state' =>
      rw [hrun] at hprogram
      exact hfail failure state' hprogram

theorem Outcome.and {program : EStateM ε σ α} (hprogram : Outcome program post fail state)
    (hprogram' : Outcome program post' fail' state) :
    Outcome program (fun value state' => post value state' ∧ post' value state')
      (fun failure state' => fail failure state' ∧ fail' failure state') state := by
  unfold Outcome at *
  cases hrun : program state with
  | ok value state' =>
      rw [hrun] at hprogram hprogram'
      exact ⟨hprogram, hprogram'⟩
  | error failure state' =>
      rw [hrun] at hprogram hprogram'
      exact ⟨hprogram, hprogram'⟩

theorem Outcome.of_ok {program : EStateM ε σ α} {value : α} {state' : σ}
    (hprogram : Outcome program post fail state) (hrun : program state = .ok value state') :
    post value state' := by
  unfold Outcome at hprogram
  rwa [hrun] at hprogram

/-- A run that succeeds with a value that passes a test. -/
def endsWith (test : α → Bool) : EStateM.Result ε σ α → Bool
  | .ok value _ => test value
  | .error _ _ => false

theorem exists_ok_of_endsWith {test : α → Bool} {run : EStateM.Result ε σ α}
    (hends : endsWith test run = true) :
    ∃ value state', run = .ok value state' ∧ test value = true := by
  cases run with
  | ok value state' => exact ⟨value, state', rfl, hends⟩
  | error failure state' => cases hends

theorem Outcome.ends {program : EStateM ε σ α} (hprogram : Outcome program post fail state)
    {test : α → Bool} (hends : endsWith test (program state) = true) :
    ∃ value state', program state = .ok value state' ∧ test value = true ∧ post value state' := by
  obtain ⟨value, state', hrun, htest⟩ := exists_ok_of_endsWith hends
  exact ⟨value, state', hrun, htest, hprogram.of_ok hrun⟩

/-- Two specifications from one state, of programs that both succeed. -/
theorem exists_ok_of_both {program : EStateM ε σ α} {program' : EStateM ε σ β}
    {post' : β → σ → Prop} {fail' : ε → σ → Prop} {rest : Prop}
    (hboth : Outcome program post fail state ∧ Outcome program' post' fail' state ∧ rest)
    {test : α → Bool} (hends : endsWith test (program state) = true) {test' : β → Bool}
    (hends' : endsWith test' (program' state) = true) :
    (∃ value state', program state = .ok value state' ∧ test value = true ∧ post value state') ∧
      ∃ value state', program' state = .ok value state' ∧ test' value = true ∧
        post' value state' :=
  ⟨hboth.1.ends hends, hboth.2.1.ends hends'⟩

theorem Outcome.of_error {program : EStateM ε σ α} {failure : ε} {state' : σ}
    (hprogram : Outcome program post fail state)
    (hrun : program state = .error failure state') : fail failure state' := by
  unfold Outcome at hprogram
  rwa [hrun] at hprogram

/-- A specification holds when it does for each way the run can end. -/
theorem Outcome.intro {program : EStateM ε σ α}
    (hok : ∀ value state', program state = .ok value state' → post value state')
    (herror : ∀ failure state', program state = .error failure state' → fail failure state') :
    Outcome program post fail state := by
  unfold Outcome
  cases hrun : program state with
  | ok value state' => exact hok value state' hrun
  | error failure state' => exact herror failure state' hrun

@[simp]
theorem outcome_pure (value : α) :
    Outcome (pure value : EStateM ε σ α) post fail state ↔ post value state := Iff.rfl

@[simp]
theorem outcome_throw (failure : ε) :
    Outcome (throw failure : EStateM ε σ α) post fail state ↔ fail failure state := Iff.rfl

@[simp]
theorem outcome_get {post : σ → σ → Prop} :
    Outcome (get : EStateM ε σ σ) post fail state ↔ post state state := Iff.rfl

@[simp]
theorem outcome_set {post : PUnit → σ → Prop} (state' : σ) :
    Outcome (set state' : EStateM ε σ PUnit) post fail state ↔ post ⟨⟩ state' := Iff.rfl

@[simp]
theorem outcome_modify {post : PUnit → σ → Prop} (update : σ → σ) :
    Outcome (modify update : EStateM ε σ PUnit) post fail state ↔ post ⟨⟩ (update state) :=
  Iff.rfl

@[simp]
theorem outcome_bind {program : EStateM ε σ β} {next : β → EStateM ε σ α} :
    Outcome (program >>= next) post fail state ↔
      Outcome program (fun value => Outcome (next value) post fail) fail state := by
  unfold Outcome
  change (match (match program state with
    | .ok value middle => next value middle
    | .error failure middle => .error failure middle) with
    | .ok value state' => post value state'
    | .error failure state' => fail failure state') ↔ _
  cases program state <;> rfl

@[simp]
theorem outcome_map {program : EStateM ε σ β} {f : β → α} :
    Outcome (f <$> program) post fail state ↔
      Outcome program (fun value => post (f value)) fail state := by
  unfold Outcome
  change (match (match program state with
    | .ok value middle => EStateM.Result.ok (f value) middle
    | .error failure middle => .error failure middle) with
    | .ok value state' => post value state'
    | .error failure state' => fail failure state') ↔ _
  cases program state <;> rfl

theorem outcome_ite {condition : Prop} [Decidable condition]
    {program other : EStateM ε σ α} (hyes : condition → Outcome program post fail state)
    (hno : ¬condition → Outcome other post fail state) :
    Outcome (if condition then program else other) post fail state := by
  split
  · exact hyes ‹_›
  · exact hno ‹_›

/-- A conditional step before the rest of a program. -/
theorem outcome_when {condition : Prop} [Decidable condition] {program : EStateM ε σ Unit}
    {next : Unit → EStateM ε σ α} {entry : σ → Prop}
    (hprogram : condition → Outcome program (fun _ => entry) fail state)
    (hskip : ¬condition → entry state)
    (hnext : ∀ state', entry state' → Outcome (next ()) post fail state') :
    Outcome (if condition then program >>= next else next ()) post fail state := by
  refine outcome_ite (fun hcondition => ?_) fun hcondition => hnext state (hskip hcondition)
  rw [outcome_bind]
  exact (hprogram hcondition).imp (fun _ state' h => hnext state' h) fun _ _ h => h

/-- A caught failure is a value; every other failure passes. -/
@[simp]
theorem outcome_attempt {κ : Type} {catches : ε → Option κ} {program : EStateM ε σ β}
    {post : Except κ β → σ → Prop} :
    Outcome (attempt catches program) post fail state ↔
      Outcome program (fun value => post (.ok value))
        (fun failure state' => match catches failure with
          | some caught => post (.error caught) state'
          | none => fail failure state') state := by
  unfold Outcome attempt
  cases program state with
  | ok value state' => rfl
  | error failure state' =>
      dsimp only
      cases catches failure <;> rfl

/-- A fold keeps what each of its steps keeps. -/
theorem outcome_foldlM {γ : Type} {step : α → γ → EStateM ε σ α} {inputs : List γ}
    {keeps : List γ → α → σ → Prop} {value : α}
    (hstep : ∀ input rest value state, keeps (input :: rest) value state →
      Outcome (step value input) (keeps rest) fail state)
    (hstart : keeps inputs value state) :
    Outcome (inputs.foldlM step value) (keeps []) fail state := by
  induction inputs generalizing value state with
  | nil => exact hstart
  | cons input rest ih =>
      rw [List.foldlM_cons, outcome_bind]
      exact (hstep input rest value state hstart).imp (fun value state' h => ih h)
        fun _ _ h => h

/-- A loop over a list keeps what each of its turns keeps. -/
theorem outcome_forM {γ : Type} {step : γ → EStateM ε σ PUnit} {inputs : List γ}
    {keeps : List γ → σ → Prop}
    (hstep : ∀ input rest state, keeps (input :: rest) state →
      Outcome (step input) (fun _ => keeps rest) fail state)
    (hstart : keeps inputs state) :
    Outcome (inputs.forM step) (fun _ => keeps []) fail state := by
  induction inputs generalizing state with
  | nil => exact hstart
  | cons input rest ih =>
      change Outcome (step input >>= fun _ => rest.forM step) _ _ _
      rw [outcome_bind]
      exact (hstep input rest state hstart).imp (fun value state' h => ih h) fun _ _ h => h

/-! ## Frames -/

/-- `relation` holds between the state before a run and the state after it, however the run
ends. -/
def Respects (relation : σ → σ → Prop) (program : EStateM ε σ α) : Prop :=
  ∀ state, Outcome program (fun _ => relation state) (fun _ => relation state) state

section Respects

variable {relation : σ → σ → Prop}

theorem Respects.of_ok {program : EStateM ε σ α} (hprogram : Respects relation program)
    {value : α} {state state' : σ} (hrun : program state = .ok value state') :
    relation state state' :=
  (hprogram state).of_ok hrun

theorem Respects.of_error {program : EStateM ε σ α} (hprogram : Respects relation program)
    {failure : ε} {state state' : σ} (hrun : program state = .error failure state') :
    relation state state' :=
  (hprogram state).of_error hrun

theorem Respects.weaken {relation' : σ → σ → Prop} {program : EStateM ε σ α}
    (hprogram : Respects relation program)
    (himp : ∀ state state', relation state state' → relation' state state') :
    Respects relation' program := fun state =>
  (hprogram state).imp (fun _ state' => himp state state') fun _ state' => himp state state'

theorem Respects.modify {update : σ → σ} (hupdate : ∀ state, relation state (update state)) :
    Respects relation (modify update : EStateM ε σ PUnit) := hupdate

theorem Respects.ite {condition : Prop} [Decidable condition] {program other : EStateM ε σ α}
    (hyes : Respects relation program) (hno : Respects relation other) :
    Respects relation (if condition then program else other) := by
  split
  · exact hyes
  · exact hno

theorem Respects.pure [Std.Refl relation] (value : α) :
    Respects relation (Pure.pure value : EStateM ε σ α) :=
  fun state => Std.Refl.refl state

theorem Respects.throw [Std.Refl relation] (failure : ε) :
    Respects relation (throw failure : EStateM ε σ α) :=
  fun state => Std.Refl.refl state

theorem Respects.get [Std.Refl relation] :
    Respects relation (get : EStateM ε σ σ) := fun state => Std.Refl.refl state

theorem Respects.bind [IsTrans σ relation] {program : EStateM ε σ α} {next : α → EStateM ε σ β}
    (hprogram : Respects relation program) (hnext : ∀ value, Respects relation (next value)) :
    Respects relation (program >>= next) := by
  intro state
  rw [outcome_bind]
  refine (hprogram state).imp (fun value middle hmiddle => ?_) fun _ _ h => h
  exact (hnext value middle).imp (fun _ _ h => IsTrans.trans _ _ _ hmiddle h) fun _ _ h =>
    IsTrans.trans _ _ _ hmiddle h

theorem Respects.attempt {κ : Type} {catches : ε → Option κ} {program : EStateM ε σ α}
    (hprogram : Respects relation program) : Respects relation (attempt catches program) := by
  intro state
  rw [outcome_attempt]
  refine (hprogram state).imp (fun _ _ h => h) fun failure state' h => ?_
  split <;> exact h

theorem Respects.forM [Std.Refl relation] [IsTrans σ relation] {γ : Type}
    {step : γ → EStateM ε σ PUnit} (inputs : List γ)
    (hstep : ∀ input, Respects relation (step input)) : Respects relation (inputs.forM step) := by
  induction inputs with
  | nil => exact Respects.pure _
  | cons input rest ih => exact Respects.bind (hstep input) fun _ => ih

theorem Respects.foldlM [Std.Refl relation] [IsTrans σ relation] {γ : Type}
    {step : α → γ → EStateM ε σ α} (inputs : List γ)
    (hstep : ∀ value input, Respects relation (step value input)) (value : α) :
    Respects relation (inputs.foldlM step value) := by
  induction inputs generalizing value with
  | nil => exact Respects.pure _
  | cons input rest ih =>
      rw [List.foldlM_cons]
      exact Respects.bind (hstep value input) fun _ => ih _

end Respects

/-! ## Frames with failures -/

/-- However a run ends, `relation` holds between the states before and after it, and
it fails in one of the ways `fails` allows. -/
def Within (relation : σ → σ → Prop) (fails : ε → Prop) (program : EStateM ε σ α) : Prop :=
  ∀ state, Outcome program (fun _ => relation state)
    (fun failure state' => relation state state' ∧ fails failure) state

namespace Within

variable {relation : σ → σ → Prop} {fails : ε → Prop}

theorem of_outcome {program : EStateM ε σ α} {post : σ → α → σ → Prop} {fail : σ → ε → σ → Prop}
    (hprogram : ∀ state, Outcome program (post state) (fail state) state)
    (hpost : ∀ state value state', post state value state' → relation state state')
    (hfail : ∀ state failure state', fail state failure state' →
      relation state state' ∧ fails failure) : Within relation fails program := fun state =>
  (hprogram state).imp (hpost state) (hfail state)

theorem modify {update : σ → σ} (hupdate : ∀ state, relation state (update state)) :
    Within relation fails (modify update : EStateM ε σ PUnit) := hupdate

theorem get_bind {next : σ → EStateM ε σ α} (hnext : ∀ state, Within relation fails (next state)) :
    Within relation fails (get >>= next) := fun state => hnext state state

theorem ite {condition : Prop} [Decidable condition] {program other : EStateM ε σ α}
    (hyes : condition → Within relation fails program)
    (hno : ¬condition → Within relation fails other) :
    Within relation fails (if condition then program else other) := by
  split
  · exact hyes ‹_›
  · exact hno ‹_›

theorem pure [Std.Refl relation] (value : α) :
    Within relation fails (Pure.pure value : EStateM ε σ α) := fun state => Std.Refl.refl state

theorem throw [Std.Refl relation] {failure : ε} (hfails : fails failure) :
    Within relation fails (MonadExcept.throw failure : EStateM ε σ α) := fun state =>
  ⟨Std.Refl.refl state, hfails⟩

/-- What stands behind a failure is never run. -/
theorem throw_bind [Std.Refl relation] {failure : ε} (hfails : fails failure)
    (next : α → EStateM ε σ β) :
    Within relation fails ((MonadExcept.throw failure : EStateM ε σ α) >>= next) := fun state =>
  ⟨Std.Refl.refl state, hfails⟩

/-- The rest of a run. -/
theorem resume [IsTrans σ relation] {program : EStateM ε σ α}
    (hprogram : Within relation fails program) {state middle : σ}
    (hmiddle : relation state middle) :
    Outcome program (fun _ => relation state)
      (fun failure state' => relation state state' ∧ fails failure) middle :=
  (hprogram middle).imp (fun _ _ h => IsTrans.trans _ _ _ hmiddle h) fun _ _ h =>
    ⟨IsTrans.trans _ _ _ hmiddle h.1, h.2⟩

theorem bind [IsTrans σ relation] {program : EStateM ε σ α} {next : α → EStateM ε σ β}
    (hprogram : Within relation fails program)
    (hnext : ∀ value, Within relation fails (next value)) :
    Within relation fails (program >>= next) := by
  intro state
  rw [outcome_bind]
  exact (hprogram state).imp (fun value _ hmiddle => (hnext value).resume hmiddle) fun _ _ h => h

theorem foldlM [Std.Refl relation] [IsTrans σ relation] {γ : Type} {step : α → γ → EStateM ε σ α}
    (inputs : List γ) (hstep : ∀ value input, Within relation fails (step value input))
    (value : α) : Within relation fails (inputs.foldlM step value) := by
  induction inputs generalizing value with
  | nil => exact Within.pure _
  | cons input inputs ih =>
      rw [List.foldlM_cons]
      exact Within.bind (hstep value input) ih

end Within

end Littlefs.Program
