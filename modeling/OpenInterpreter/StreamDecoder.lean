import Mathlib.Data.List.Basic

/-! Decoders that read values off the front of a buffer.

A decoder is one step of its loop: the front of the buffer is a value, is refused, or needs
more input. `drain` runs the loop. `drain_append` says that input that arrives later does not
change what was read before it. -/

namespace OpenInterpreter.StreamDecoder

inductive Step (α β ε : Type) where
  | more
  | refuse (error : ε)
  | emit (value : β) (rest : List α)
  deriving DecidableEq

/-- A step that consumes input for every value, and whose verdict later input cannot change. -/
structure Decoder (α β ε : Type) where
  step : List α → Step α β ε
  consumes : ∀ {buffer value rest}, step buffer = .emit value rest → rest.length < buffer.length
  emit_append : ∀ {buffer value rest} later, step buffer = .emit value rest →
    step (buffer ++ later) = .emit value (rest ++ later)
  refuse_append : ∀ {buffer error} later, step buffer = .refuse error →
    step (buffer ++ later) = .refuse error

structure Drained (α β ε : Type) where
  values : List β
  rest : List α
  error : Option ε
  deriving DecidableEq

def Drained.after {α β ε : Type} (values : List β) (drained : Drained α β ε) : Drained α β ε :=
  { drained with values := values ++ drained.values }

variable {α β ε : Type} (decoder : Decoder α β ε)

def drain (buffer : List α) : Drained α β ε :=
  match _ : decoder.step buffer with
  | .more => ⟨[], buffer, none⟩
  | .refuse error => ⟨[], buffer, some error⟩
  | .emit value rest => (drain rest).after [value]
termination_by buffer.length
decreasing_by exact decoder.consumes ‹_›

variable {buffer : List α}

theorem drain_eq (buffer : List α) :
    drain decoder buffer = match decoder.step buffer with
      | .more => ⟨[], buffer, none⟩
      | .refuse error => ⟨[], buffer, some error⟩
      | .emit value rest => (drain decoder rest).after [value] := by
  rw [drain]
  split <;> rename_i found <;> rw [found]

theorem drain_more (found : decoder.step buffer = .more) :
    drain decoder buffer = ⟨[], buffer, none⟩ := by
  rw [drain_eq, found]

theorem drain_refuse {error : ε} (found : decoder.step buffer = .refuse error) :
    drain decoder buffer = ⟨[], buffer, some error⟩ := by
  rw [drain_eq, found]

theorem drain_emit {rest : List α} {value : β} (found : decoder.step buffer = .emit value rest) :
    drain decoder buffer = (drain decoder rest).after [value] := by
  rw [drain_eq, found]

theorem drain_induction {motive : List α → Prop} (buffer : List α)
    (more : ∀ buffer, decoder.step buffer = .more → motive buffer)
    (refuse : ∀ buffer error, decoder.step buffer = .refuse error → motive buffer)
    (emit : ∀ buffer value rest, decoder.step buffer = .emit value rest → motive rest →
      motive buffer) : motive buffer := by
  induction length : buffer.length using Nat.strongRecOn generalizing buffer with
  | _ size ih =>
    cases found : decoder.step buffer with
    | more => exact more buffer found
    | refuse error => exact refuse buffer error found
    | emit value rest =>
      apply emit buffer value rest found
      exact ih rest.length (length ▸ decoder.consumes found) rest rfl

theorem step_rest (buffer : List α) (accepted : (drain decoder buffer).error = none) :
    decoder.step (drain decoder buffer).rest = .more := by
  induction buffer using drain_induction decoder with
  | more buffer found =>
    rw [drain_more decoder found]
    exact found
  | refuse buffer error found =>
    rw [drain_refuse decoder found] at accepted
    cases accepted
  | emit buffer value rest found ih =>
    rw [drain_emit decoder found] at accepted ⊢
    exact ih accepted

/-- Later input is read after what was read without it, and a refusal stays. -/
theorem drain_append (buffer later : List α) :
    ((drain decoder buffer).error = none → drain decoder (buffer ++ later) =
        (drain decoder ((drain decoder buffer).rest ++ later)).after
          (drain decoder buffer).values) ∧
    ∀ error, (drain decoder buffer).error = some error →
      (drain decoder (buffer ++ later)).error = some error := by
  induction buffer using drain_induction decoder with
  | more buffer found =>
    rw [drain_more decoder found]
    exact ⟨fun _ => rfl, fun error refused => by cases refused⟩
  | refuse buffer error found =>
    rw [drain_refuse decoder found, drain_refuse decoder (decoder.refuse_append later found)]
    exact ⟨fun accepted => (by cases accepted), fun _ refused => refused⟩
  | emit buffer value rest found ih =>
    rw [drain_emit decoder found, drain_emit decoder (decoder.emit_append later found)]
    constructor
    · intro accepted
      rw [ih.1 accepted]
      rfl
    · exact ih.2

theorem drain_cut {later rest : List α} {values : List β}
    (read : drain decoder (buffer ++ later) = ⟨values, rest, none⟩) :
    (drain decoder buffer).error = none ∧
      ∃ laterValues, values = (drain decoder buffer).values ++ laterValues ∧
        drain decoder ((drain decoder buffer).rest ++ later) = ⟨laterValues, rest, none⟩ := by
  obtain ⟨accepts, refuses⟩ := drain_append decoder buffer later
  cases outcome : (drain decoder buffer).error with
  | some error =>
    have refused := refuses error outcome
    rw [read] at refused
    cases refused
  | none =>
    have pieces := read.symm.trans (accepts outcome)
    generalize drain decoder ((drain decoder buffer).rest ++ later) = tail at pieces ⊢
    cases tail
    cases pieces
    exact ⟨rfl, _, rfl, rfl⟩

end OpenInterpreter.StreamDecoder
