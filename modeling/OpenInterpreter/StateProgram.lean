import Mathlib.Init

/-! Programs over a state that may fail and keep the state they reached, with the rules of
their weakest preconditions. -/

namespace OpenInterpreter.StateProgram

abbrev Program (State Failure : Type) := ExceptT Failure (StateM State)

variable {State Failure Value Result : Type}

def runFrom (program : Program State Failure Value) (start : State) :
    Except Failure Value × State :=
  program.run.run start

/-- Every outcome from `start` is as asked for: `post` where the program returns, `fails`
where it fails. -/
def wp (program : Program State Failure Value) (post : Value → State → Prop)
    (fails : State → Prop) (start : State) : Prop :=
  match runFrom program start with
  | (.ok value, final) => post value final
  | (.error _, final) => fails final

def ofResult (result : Except Failure Value) : Program State Failure Value :=
  ExceptT.mk (pure result)

def ofStep (step : State → Except Failure Value × State) : Program State Failure Value := step

variable (program : Program State Failure Value) (next : Value → Program State Failure Result)

theorem runFrom_bind (start : State) :
    runFrom (program >>= next) start =
      match runFrom program start with
      | (.ok value, middle) => runFrom (next value) middle
      | (.error failure, middle) => (.error failure, middle) := by
  change (match program.run.run start with
    | (result, middle) => (ExceptT.bindCont next result).run middle) = _
  unfold runFrom
  rcases program.run.run start with ⟨_ | _, middle⟩ <;> rfl

@[simp]
theorem wp_pure (value : Value) (post : Value → State → Prop) (fails : State → Prop)
    (start : State) :
    wp (pure value : Program State Failure Value) post fails start ↔ post value start :=
  Iff.rfl

@[simp]
theorem wp_throw (failure : Failure) (post : Value → State → Prop) (fails : State → Prop)
    (start : State) :
    wp (throw failure : Program State Failure Value) post fails start ↔ fails start :=
  Iff.rfl

@[simp]
theorem wp_get (post : State → State → Prop) (fails : State → Prop) (start : State) :
    wp (get : Program State Failure State) post fails start ↔ post start start :=
  Iff.rfl

@[simp]
theorem wp_modify (change : State → State) (post : Unit → State → Prop) (fails : State → Prop)
    (start : State) :
    wp (modify change : Program State Failure Unit) post fails start ↔ post () (change start) :=
  Iff.rfl

@[simp]
theorem wp_bind (post : Result → State → Prop) (fails : State → Prop) (start : State) :
    wp (program >>= next) post fails start ↔
      wp program (fun value middle => wp (next value) post fails middle) fails start := by
  unfold wp
  rw [runFrom_bind]
  rcases runFrom program start with ⟨_ | _, middle⟩ <;> rfl

theorem wp_ofResult (result : Except Failure Value) (post : Value → State → Prop)
    (fails : State → Prop) (start : State) :
    wp (ofResult result) post fails start ↔ (∀ value, result = .ok value → post value start) ∧
        ((∀ value, result ≠ .ok value) → fails start) := by
  cases result with
  | ok value =>
    change post value start ↔ _
    simp
  | error failure =>
    change fails start ↔ _
    simp

theorem wp_ofStep (step : State → Except Failure Value × State) (post : Value → State → Prop)
    (fails : State → Prop) (start : State) :
    wp (ofStep step) post fails start ↔
      match step start with
      | (.ok value, final) => post value final
      | (.error _, final) => fails final :=
  Iff.rfl

variable {program} {post : Value → State → Prop}
    {fails : State → Prop} {start : State} {post' : Value → State → Prop}

section

variable (holds : wp program post fails start)
  (stronger : ∀ value final, post value final → post' value final)
include holds stronger

theorem wp_mono {fails' : State → Prop}
    (onFailure : ∀ final, fails final → fails' final) : wp program post' fails' start := by
  unfold wp at holds ⊢
  rcases outcome : runFrom program start with ⟨_ | value, final⟩
  · rw [outcome] at holds
    exact onFailure final holds
  · rw [outcome] at holds
    exact stronger value final holds

theorem wp_imp : wp program post' fails start := wp_mono holds stronger fun _ failed => failed

theorem wp_ok : wp program post' (fun _ => True) start := wp_mono holds stronger fun _ _ => trivial

end

theorem wp_and {fails' : State → Prop}
    (left : wp program post fails start) (right : wp program post' fails' start) :
    wp program (fun value final => post value final ∧ post' value final)
      (fun final => fails final ∧ fails' final) start := by
  unfold wp at left right ⊢
  rcases outcome : runFrom program start with ⟨_ | value, final⟩
  · rw [outcome] at left right
    exact ⟨left, right⟩
  · rw [outcome] at left right
    exact ⟨left, right⟩

theorem wp_of_runFrom {final : State} {value : Value} (holds : wp program post fails start)
    (ran : runFrom program start = (.ok value, final)) : post value final := by
  unfold wp at holds
  rw [ran] at holds
  exact holds

theorem wp_same (program : Program State Failure Value) (property : State → Prop) (start : State) :
    wp program (fun _ => property) property start ↔ property (runFrom program start).2 := by
  unfold wp
  rcases runFrom program start with ⟨_ | _, final⟩ <;> rfl

end OpenInterpreter.StateProgram
