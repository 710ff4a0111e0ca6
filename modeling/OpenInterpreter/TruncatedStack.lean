import Mathlib.Data.List.Basic

/-! A stack that grows by one value and shrinks by any number, also beyond its bottom. What is left
at the end can be read off backward: a value stays if the pops behind it are used up by the values
behind it. -/

namespace OpenInterpreter.TruncatedStack

open List

inductive Step (α : Type) where
  | push (value : α)
  | pop (count : Nat)

variable {α : Type}

def run : List α → List (Step α) → List α
  | stack, [] => stack
  | stack, .push value :: steps => run (stack ++ [value]) steps
  | stack, .pop count :: steps => run (stack.take (stack.length - count)) steps

def pending : List (Step α) → Nat
  | [] => 0
  | .push _ :: steps => pending steps - 1
  | .pop count :: steps => pending steps + count

def survivors : List (Step α) → List α
  | [] => []
  | .push value :: steps => if pending steps = 0 then value :: survivors steps else survivors steps
  | .pop _ :: steps => survivors steps

theorem run_eq (stack : List α) (steps : List (Step α)) :
    run stack steps = stack.take (stack.length - pending steps) ++ survivors steps := by
  induction steps generalizing stack with
  | nil => simp [run, pending, survivors]
  | cons step steps ih =>
    cases step with
    | pop count =>
      rw [run, ih, take_take, pending, survivors, length_take]
      congr 2
      omega
    | push value =>
      rw [run, ih, pending, survivors, length_append, length_singleton]
      by_cases settled : pending steps = 0
      · rw [if_pos settled, settled, Nat.sub_zero, Nat.sub_zero, take_length,
          take_of_length_le (by simp), append_assoc, singleton_append]
      · rw [if_neg settled, take_append_of_le_length (by omega)]
        congr 2
        omega

theorem run_nil (steps : List (Step α)) : run [] steps = survivors steps := by
  rw [run_eq, take_nil, nil_append]

theorem mem_of_survivors {value : α} {steps : List (Step α)} (survives : value ∈ survivors steps) :
    .push value ∈ steps := by
  induction steps with
  | nil => cases survives
  | cons step steps ih =>
    cases step with
    | pop count => exact mem_cons_of_mem _ (ih survives)
    | push other =>
      rw [survivors] at survives
      split at survives
      · cases mem_cons.mp survives with
        | inl same => exact same ▸ mem_cons_self
        | inr later => exact mem_cons_of_mem _ (ih later)
      · exact mem_cons_of_mem _ (ih survives)

section

variable {β : Type} (label : α → Option β)

def labelled : List (Step α) → List (Step β)
  | [] => []
  | .push value :: steps =>
    match label value with
    | some found => .push found :: labelled steps
    | none => labelled steps
  | .pop count :: steps => .pop count :: labelled steps

theorem pending_le_labelled (steps : List (Step α)) :
    pending steps ≤ pending (labelled label steps) := by
  induction steps with
  | nil => exact Nat.le_refl _
  | cons step steps ih =>
    cases step with
    | pop count =>
      rw [pending, labelled, pending]
      omega
    | push value =>
      rw [labelled]
      cases label value with
      | none => exact Nat.le_trans (Nat.sub_le _ _) ih
      | some found => exact Nat.sub_le_sub_right ih 1

theorem survivors_labelled_sublist (steps : List (Step α)) :
    (survivors (labelled label steps)).Sublist ((survivors steps).filterMap label) := by
  induction steps with
  | nil => exact Sublist.refl _
  | cons step steps ih =>
    cases step with
    | pop count => exact ih
    | push value =>
      have less := pending_le_labelled label steps
      cases found : label value with
      | none =>
        simp only [labelled, found, survivors]
        by_cases settled : pending steps = 0
        · rw [if_pos settled, filterMap_cons_none found]
          exact ih
        · rw [if_neg settled]
          exact ih
      | some mark =>
        simp only [labelled, found, survivors]
        by_cases settled : pending (labelled label steps) = 0
        · rw [if_pos settled, if_pos (by omega), filterMap_cons_some found]
          exact ih.cons_cons mark
        · rw [if_neg settled]
          split
          · rw [filterMap_cons_some found]
            exact ih.cons mark
          · exact ih

/-- Every labelled value that survives would survive among the labelled ones alone. -/
def CountsAlike (steps : List (Step α)) : Prop :=
  ∀ before value after, steps = before ++ .push value :: after → (label value).isSome = true →
    pending after = 0 → pending (labelled label after) = 0

theorem countsAlike_cons (step : Step α) (steps : List (Step α)) :
    CountsAlike label (step :: steps) ↔
      (∀ value, step = .push value → (label value).isSome = true → pending steps = 0 →
        pending (labelled label steps) = 0) ∧ CountsAlike label steps := by
  constructor
  · intro alike
    refine ⟨?_, ?_⟩
    · rintro value rfl
      exact alike [] value steps rfl
    · intro before value after parts
      exact alike (step :: before) value after (by rw [parts]; rfl)
  · rintro ⟨head, tail⟩ before value after parts
    cases before with
    | nil =>
      obtain ⟨rfl, rfl⟩ := cons.inj parts
      exact head value rfl
    | cons first before =>
      obtain ⟨rfl, rfl⟩ := cons.inj parts
      exact tail before value after rfl

theorem survivors_labelled_eq_iff (steps : List (Step α)) :
    survivors (labelled label steps) = (survivors steps).filterMap label ↔
      CountsAlike label steps := by
  induction steps with
  | nil =>
    refine iff_of_true rfl ?_
    intro before value after parts
    cases before <;> cases parts
  | cons step steps ih =>
    rw [countsAlike_cons, ← ih]
    have shorter := (survivors_labelled_sublist label steps).length_le
    cases step with
    | pop count => simp [labelled, survivors]
    | push value =>
      cases found : label value with
      | none =>
        have skipped : (survivors (.push value :: steps)).filterMap label =
            (survivors steps).filterMap label := by
          rw [survivors]
          split
          · rw [filterMap_cons_none found]
          · rfl
        simp only [labelled, found, skipped]
        refine (and_iff_right ?_).symm
        rintro other equal carries
        cases equal
        rw [found] at carries
        cases carries
      | some mark =>
        have first : (∀ other, Step.push value = .push other → (label other).isSome = true →
            pending steps = 0 → pending (labelled label steps) = 0) ↔
              (pending steps = 0 → pending (labelled label steps) = 0) := by
          constructor
          · intro every
            exact every value rfl (by rw [found]; rfl)
          · rintro holds other equal _
            exact holds
        rw [first]
        simp only [labelled, found, survivors]
        by_cases settled : pending steps = 0
        · rw [if_pos settled, filterMap_cons_some found]
          by_cases alone : pending (labelled label steps) = 0
          · simp [alone]
          · rw [if_neg alone]
            refine iff_of_false ?_ (fun holds => alone (holds.1 settled))
            intro equal
            have lengths := congrArg List.length equal
            rw [length_cons] at lengths
            omega
        · have less := pending_le_labelled label steps
          rw [if_neg (by omega)]
          simp [settled]

end

end OpenInterpreter.TruncatedStack
