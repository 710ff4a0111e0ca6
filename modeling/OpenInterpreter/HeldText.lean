import Mathlib.Data.List.Basic

/-! A conversation in which the assistant's last text is held back in one slot, so that it can go
out together with calls that follow it. A text that comes while the slot is full takes the place of
the one held, and a question empties it. -/

namespace OpenInterpreter.HeldText

open List Option

inductive Speaker where
  | user
  | assistant
  deriving DecidableEq

inductive Event (τ : Type) where
  | say (text : τ)
  | ask (text : τ)
  | call
  | output
  deriving DecidableEq

structure Slot (τ : Type) where
  shown : List (Speaker × τ)
  held : Option τ
  calls : Bool
  deriving DecidableEq

variable {τ : Type}

def Slot.release (slot : Slot τ) : Slot τ :=
  { slot with shown := slot.shown ++ slot.held.toList.map (Speaker.assistant, ·), held := none }

def step (slot : Slot τ) : Event τ → Slot τ
  | .say text => { slot with held := some text }
  | .ask text => ⟨slot.shown ++ [(.user, text)], none, false⟩
  | .call => { slot with calls := true }
  | .output => if slot.calls then { slot.release with calls := false } else slot

def start : Slot τ := ⟨[], none, false⟩

def delivered (events : List (Event τ)) (slot : Slot τ) : List (Speaker × τ) :=
  (events.foldl step slot).release.shown

def spoken : List (Event τ) → List (Speaker × τ)
  | [] => []
  | .say text :: events => (.assistant, text) :: spoken events
  | .ask text :: events => (.user, text) :: spoken events
  | .call :: events | .output :: events => spoken events

/-- A held text goes out: nothing more is said, or an output comes first that has calls to send. -/
def heard : Bool → List (Event τ) → Bool
  | _, [] => true
  | _, .call :: events => heard true events
  | calls, .output :: events => calls || heard false events
  | _, .say _ :: _ | _, .ask _ :: _ => false

def AllHeard : Bool → List (Event τ) → Prop
  | _, [] => True
  | calls, .say _ :: events => heard calls events = true ∧ AllHeard calls events
  | _, .ask _ :: events => AllHeard false events
  | _, .call :: events => AllHeard true events
  | _, .output :: events => AllHeard false events

theorem delivered_cons (event : Event τ) (events : List (Event τ)) (slot : Slot τ) :
    delivered (event :: events) slot = delivered events (step slot event) :=
  rfl

theorem step_output_calls {slot : Slot τ} (calls : slot.calls = true) :
    step slot .output = { slot.release with calls := false } := by
  rw [step, if_pos calls]

theorem step_output_idle {slot : Slot τ} (idle : slot.calls = false) :
    step slot .output = slot := by
  rw [step, idle]
  rfl

variable (events : List (Event τ))

theorem delivered_length (slot : Slot τ) :
    (delivered events slot).length ≤
      slot.shown.length + slot.held.toList.length + (spoken events).length := by
  induction events generalizing slot with
  | nil => simp [delivered, Slot.release]
  | cons event events ih =>
    have later := ih (step slot event)
    rw [delivered_cons]
    cases event with
    | say text =>
      simp only [step, toList_some, spoken, length_cons, length_nil] at later ⊢
      omega
    | ask text =>
      simp only [step, length_append, toList_none, length_nil, spoken, length_cons] at later ⊢
      omega
    | call => exact later
    | output =>
      cases calls : slot.calls with
      | true =>
        rw [step_output_calls calls] at later ⊢
        simp only [Slot.release, length_append, length_map, toList_none, spoken] at later ⊢
        omega
      | false =>
        rw [step_output_idle calls] at later ⊢
        exact later

/-- Nothing said is lost or moved exactly when every text is heard, one held already included. -/
theorem delivered_eq_iff (slot : Slot τ) :
    delivered events slot =
        slot.shown ++ (slot.held.toList.map (Speaker.assistant, ·) ++ spoken events) ↔
      (slot.held.isSome → heard slot.calls events = true) ∧ AllHeard slot.calls events := by
  induction events generalizing slot with
  | nil =>
    refine iff_of_true ?_ ⟨fun _ => rfl, trivial⟩
    rw [spoken, append_nil]
    rfl
  | cons event events ih =>
    have later := ih (step slot event)
    have short := delivered_length events (step slot event)
    rw [delivered_cons]
    cases event with
    | say text =>
      simp only [step, toList_some, map_cons, map_nil, singleton_append,
        isSome_some, forall_true_left] at later
      cases held : slot.held with
      | none =>
        rw [step, toList_none, map_nil, nil_append, spoken, later]
        exact (and_iff_right nofun).symm
      | some lost =>
        -- the text held so far is gone, so one is missing at the end
        refine iff_of_false (fun same => ?_) (fun all => Bool.noConfusion (all.1 rfl))
        rw [same] at short
        simp only [step, toList_some, length_append, length_map, spoken, length_cons] at short
        omega
    | ask text =>
      simp only [step, toList_none, map_nil, nil_append, append_assoc, singleton_append] at later
      cases held : slot.held with
      | none =>
        rw [step, toList_none, map_nil, nil_append, spoken, later]
        exact and_congr_left' (iff_of_true nofun nofun)
      | some lost =>
        refine iff_of_false (fun same => ?_) (fun all => Bool.noConfusion (all.1 rfl))
        rw [same] at short
        simp only [step, toList_none, toList_some, length_append,
          length_map, spoken, length_cons, length_nil] at short
        omega
    | call => exact later
    | output =>
      cases calls : slot.calls with
      | true =>
        rw [step_output_calls calls] at later ⊢
        simp only [Slot.release, append_assoc] at later
        refine later.trans (and_congr_left' (iff_of_true nofun fun _ => ?_))
        rw [heard, Bool.true_or]
      | false =>
        rw [step_output_idle calls] at later ⊢
        rw [spoken, later, calls, heard]
        rfl

end OpenInterpreter.HeldText
