import Mathlib.Data.List.Nodup
import Mathlib.Logic.Function.Iterate
import OpenInterpreter.PromptNormalize

/-! Trimming the oldest items of a history: `remove_first_item` of
`core/src/context_manager/history.rs` with `remove_corresponding_for` of `normalize.rs`. -/

namespace OpenInterpreter.TrimmedHistory

open PromptItems PromptNormalize List Function

variable {Metadata : Type}

section

variable {α γ : Type} {asks answers : α → Option γ} {items left right : List α} {first item : α}

structure Paired (asks answers : α → Option γ) (items : List α) : Prop where
  asked : (items.filterMap asks).Nodup
  answered : (items.filterMap answers).Nodup
  same : ∀ call, call ∈ items.filterMap asks ↔ call ∈ items.filterMap answers

theorem Paired.symm (paired : Paired asks answers items) : Paired answers asks items :=
  ⟨paired.answered, paired.asked, fun call => (paired.same call).symm⟩

theorem Paired.drop_other (paired : Paired asks answers (first :: items))
    (noCall : asks first = none) (noAnswer : answers first = none) : Paired asks answers items := by
  obtain ⟨asked, answered, same⟩ := paired
  rw [filterMap_cons_none noCall] at asked
  rw [filterMap_cons_none noAnswer] at answered
  rw [filterMap_cons_none noCall, filterMap_cons_none noAnswer] at same
  exact ⟨asked, answered, same⟩

theorem Paired.drop_pair {call : γ}
    (paired : Paired asks answers (first :: (left ++ item :: right)))
    (apart : ∀ item, asks item = none ∨ answers item = none) (calls : asks first = some call)
    (replies : answers item = some call) : Paired asks answers (left ++ right) := by
  have silent : answers first = none := (apart first).resolve_left (by simp [calls])
  have quiet : asks item = none := (apart item).resolve_right (by simp [replies])
  obtain ⟨asked, answered, same⟩ := paired
  simp only [filterMap_cons_some calls, filterMap_cons_none silent, filterMap_append,
    filterMap_cons_none quiet, filterMap_cons_some replies] at asked answered same
  rw [nodup_cons] at asked
  rw [nodup_middle, nodup_cons] at answered
  refine ⟨by rw [filterMap_append]; exact asked.2,
    by rw [filterMap_append]; exact answered.2, fun other => ?_⟩
  have both := same other
  rw [filterMap_append, filterMap_append]
  by_cases equal : other = call
  · rw [equal]
    exact ⟨fun early => absurd early asked.1, fun late => absurd late answered.1⟩
  · simpa [equal] using both

end

def answersCall (kind : CallKind) (callId : String)
    (envelope : ResponseItemEnvelope Metadata) : Bool :=
  outputOf envelope.item = some (kind, callId)

def asksCall (kind : CallKind) (callId : String)
    (envelope : ResponseItemEnvelope Metadata) : Bool :=
  callOf envelope.item = some (kind, callId)

def isFunctionCall (callId : String) (envelope : ResponseItemEnvelope Metadata) : Bool :=
  match envelope.item with
  | .functionCall _ _ _ _ existing => existing = callId
  | _ => false

def isLocalShellCall (callId : String) (envelope : ResponseItemEnvelope Metadata) : Bool :=
  match envelope.item with
  | .localShellCall _ (some existing) _ => existing = callId
  | _ => false

/-- `eraseP` is `remove_first_matching`. -/
def removeCorrespondingFor (items : List (ResponseItemEnvelope Metadata)) :
    ResponseItem → List (ResponseItemEnvelope Metadata)
  | .functionCall _ _ _ _ callId => items.eraseP (answersCall .function callId)
  | .functionCallOutput _ (some callId) _ _ _ =>
    if items.any (isFunctionCall callId) then items.eraseP (isFunctionCall callId)
    else items.eraseP (isLocalShellCall callId)
  | .toolSearchCall _ (some callId) _ _ => items.eraseP (answersCall .toolSearch callId)
  | .toolSearchOutput _ (some callId) _ _ _ => items.eraseP (asksCall .toolSearch callId)
  | .customToolCall _ callId _ _ => items.eraseP (answersCall .custom callId)
  | .customToolCallOutput _ callId _ _ => items.eraseP (asksCall .custom callId)
  | .localShellCall _ (some callId) _ => items.eraseP (answersCall .function callId)
  | _ => items

def removeFirstItem : List (ResponseItemEnvelope Metadata) → List (ResponseItemEnvelope Metadata)
  | [] => []
  | removed :: items => removeCorrespondingFor items removed.item

variable {items : List (ResponseItemEnvelope Metadata)} {first : ResponseItemEnvelope Metadata}

theorem removeFirstItem_length :
    (removeFirstItem (first :: items)).length < (first :: items).length := by
  have shorter (p : ResponseItemEnvelope Metadata → Bool) :
      (items.eraseP p).length < (first :: items).length :=
    Nat.lt_succ_of_le (length_eraseP_le)
  rw [removeFirstItem]
  unfold removeCorrespondingFor
  split
  case h_2 =>
    split
    · exact shorter _
    · exact shorter _
  case h_8 => exact Nat.lt_succ_self _
  all_goals exact shorter _

theorem eraseP_split {p : ResponseItemEnvelope Metadata → Bool}
    (found : ∃ item ∈ items, p item = true) :
    ∃ left item right, items = left ++ item :: right ∧ p item = true ∧
      items.eraseP p = left ++ right := by
  obtain ⟨item, listed, holds⟩ := found
  obtain ⟨other, left, right, -, there, whole, erased⟩ := exists_of_eraseP listed holds
  exact ⟨left, other, right, whole, there, erased⟩

variable {call : CallKind × String}

theorem removed_with_call (calls : callOf first.item = some call)
    (answered : call ∈ outputs items) :
    ∃ left item right, items = left ++ item :: right ∧ outputOf item.item = some call ∧
      removeFirstItem (first :: items) = left ++ right := by
  have removes : removeFirstItem (first :: items) = items.eraseP (answersCall call.1 call.2) := by
    rw [removeFirstItem]
    unfold callOf at calls
    split at calls <;> cases calls <;> rename_i shape <;> simp [shape, removeCorrespondingFor]
  obtain ⟨item, listed, replies⟩ := mem_filterMap.mp answered
  obtain ⟨left, other, right, whole, there, erased⟩ := eraseP_split
    (p := answersCall call.1 call.2) ⟨item, listed, decide_eq_true replies⟩
  exact ⟨left, other, right, whole, of_decide_eq_true there, removes.trans erased⟩

theorem callOf_function_iff (callId : String) (envelope : ResponseItemEnvelope Metadata) :
    callOf envelope.item = some (.function, callId) ↔
      isFunctionCall callId envelope = true ∨ isLocalShellCall callId envelope = true := by
  unfold callOf isFunctionCall isLocalShellCall
  split <;> simp_all

theorem removed_with_output (replies : outputOf first.item = some call)
    (asked : call ∈ calls items) :
    ∃ left item right, items = left ++ item :: right ∧ callOf item.item = some call ∧
      removeFirstItem (first :: items) = left ++ right := by
  obtain ⟨item, listed, calls⟩ := mem_filterMap.mp asked
  have plain (kind : CallKind) (callId : String) (same : call = (kind, callId))
      (removes : removeFirstItem (first :: items) = items.eraseP (asksCall kind callId)) :
      ∃ left item right, items = left ++ item :: right ∧ callOf item.item = some call ∧
        removeFirstItem (first :: items) = left ++ right := by
    subst same
    obtain ⟨left, other, right, whole, there, erased⟩ := eraseP_split
      (p := asksCall kind callId) ⟨item, listed, decide_eq_true calls⟩
    exact ⟨left, other, right, whole, of_decide_eq_true there, removes.trans erased⟩
  unfold outputOf at replies
  split at replies <;> cases replies <;> rename_i shape
  · rename_i callId _ _ _
    have either := (callOf_function_iff callId item).mp calls
    simp only [removeFirstItem, shape, removeCorrespondingFor]
    by_cases some_call : items.any (isFunctionCall callId) = true
    · rw [if_pos some_call]
      obtain ⟨left, other, right, whole, there, erased⟩ := eraseP_split (any_eq_true.mp some_call)
      exact ⟨left, other, right, whole, (callOf_function_iff callId other).mpr (.inl there), erased⟩
    · have shell := either.resolve_left fun here => some_call (any_eq_true.mpr ⟨item, listed, here⟩)
      rw [if_neg some_call]
      obtain ⟨left, other, right, whole, there, erased⟩ := eraseP_split ⟨item, listed, shell⟩
      exact ⟨left, other, right, whole, (callOf_function_iff callId other).mpr (.inr there), erased⟩
  · exact plain _ _ rfl (by simp [removeFirstItem, shape, removeCorrespondingFor])
  · exact plain _ _ rfl (by simp [removeFirstItem, shape, removeCorrespondingFor])

theorem call_or_output (item : ResponseItem) : callOf item = none ∨ outputOf item = none := by
  cases item <;> simp [callOf, outputOf]

def CallsPaired (items : List (ResponseItemEnvelope Metadata)) : Prop :=
  Paired (fun envelope => callOf envelope.item) (fun envelope => outputOf envelope.item) items

theorem removeFirstItem_paired (paired : CallsPaired (first :: items)) :
    CallsPaired (removeFirstItem (first :: items)) := by
  cases calls : callOf first.item with
  | some call =>
    have silent := (call_or_output first.item).resolve_left (by simp [calls])
    have answered := (paired.same call).mp (by simp [calls])
    rw [filterMap_cons, silent] at answered
    obtain ⟨left, item, right, rfl, replies, removed⟩ := removed_with_call calls answered
    rw [removed]
    exact paired.drop_pair (fun item => call_or_output item.item) calls replies
  | none =>
    cases replies : outputOf first.item with
    | some call =>
      have asked := (paired.same call).mpr (by simp [replies])
      rw [filterMap_cons, calls] at asked
      obtain ⟨left, item, right, rfl, called, removed⟩ := removed_with_output replies asked
      rw [removed]
      exact (paired.symm.drop_pair (fun item => (call_or_output item.item).symm) replies called).symm
    | none =>
      have kept : removeFirstItem (first :: items) = items := by
        rw [removeFirstItem]
        unfold callOf outputOf at *
        unfold removeCorrespondingFor
        split <;> simp_all
      rw [kept]
      exact paired.drop_other calls replies

/-- However often the oldest item is removed, calls and outputs stay paired, and each removal
shortens the history. -/
theorem trimmed_history_paired (items : List (ResponseItemEnvelope Metadata))
    (paired : CallsPaired items) (count : Nat) :
    (∀ call, call ∈ calls (removeFirstItem^[count] items) ↔
      call ∈ outputs (removeFirstItem^[count] items)) ∧
    (removeFirstItem^[count] items ≠ [] →
      (removeFirstItem^[count + 1] items).length < (removeFirstItem^[count] items).length) := by
  have step (left : List (ResponseItemEnvelope Metadata)) (held : CallsPaired left) :
      CallsPaired (removeFirstItem left) := by
    cases left with
    | nil => exact held
    | cons first rest => exact removeFirstItem_paired held
  refine ⟨(Iterate.rec (fun left => CallsPaired left) paired step count).same, fun more => ?_⟩
  rw [iterate_succ_apply']
  obtain ⟨first, rest, shape⟩ := exists_cons_of_ne_nil more
  rw [shape]
  exact removeFirstItem_length

def shellHistory : List (ResponseItemEnvelope Unit) :=
  [⟨.localShellCall none (some "a") ⟨["ls"], none, none⟩, none⟩,
    ⟨.customToolCall none "a" "edit" "", none⟩,
    ⟨.customToolCallOutput none "a" none (.fromText ""), none⟩,
    ⟨.functionCallOutput none (some "a") none none (.fromText ""), none⟩]

theorem shell_history_trimmed :
    (∀ call, call ∈ calls (removeFirstItem^[1] shellHistory) ↔
      call ∈ outputs (removeFirstItem^[1] shellHistory)) ∧
    (removeFirstItem^[2] shellHistory).length < (removeFirstItem^[1] shellHistory).length := by
  have paired : CallsPaired shellHistory :=
    ⟨by decide, by decide, fun call => by simp [shellHistory, callOf, outputOf, or_comm]⟩
  have trimmed := trimmed_history_paired shellHistory paired 1
  exact ⟨trimmed.1, trimmed.2 (by decide)⟩

end OpenInterpreter.TrimmedHistory
