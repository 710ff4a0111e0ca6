import OpenInterpreter.ChatStream
import Mathlib.Tactic

/-! The pieces of a chat stream, and what is completed from them: the texts of the items and the
calls,
as functions of the pieces. -/

namespace OpenInterpreter.ChatPieces

open ChatStream Json List Option

inductive Piece where
  | reasoning (text : String)
  | content (deltas : List String)
  | toolCall (delta : ToolCallDelta)
  | finish (reason : String)
  deriving DecidableEq

section

variable {Number : Type}

def deltaPieces (delta : Delta Number) : List Piece :=
  (delta.reasoningContent.map Piece.reasoning).toList ++
    (delta.content.map (Piece.content ∘ extractTextDeltas)).toList ++
    (delta.toolCalls.getD []).map Piece.toolCall

def choicePieces (choice : Choice Number) : List Piece :=
  (choice.delta.map deltaPieces).getD [] ++ (choice.finishReason.map Piece.finish).toList

def chunkPieces (chunk : ChatCompletionChunk Number) : List Piece :=
  chunk.choices.flatMap choicePieces

end

def toolDeltas (pieces : List Piece) : List ToolCallDelta :=
  pieces.filterMap fun
    | .toolCall delta => some delta
    | _ => none

def arrivingText : Piece → Option String
  | .content deltas => if deltas = [] then none else some (String.join deltas)
  | _ => none

def arrivingReasoning : Piece → Option String
  | .reasoning text => if text = "" then none else some text
  | _ => none

variable (arriving : Piece → Option String)

def streamed (pieces : List Piece) : String :=
  String.join (pieces.filterMap arriving)

def argumentFragment (delta : ToolCallDelta) : String :=
  (delta.function.bind FunctionCallDelta.arguments).getD ""

variable (deltas : List ToolCallDelta)

variable (index : Nat)

def fragments : String :=
  String.join ((deltas.filter (·.index = some index)).map argumentFragment)

def firstDelta : Option ToolCallDelta :=
  deltas.find? (·.index = some index)

def deltaName (delta : ToolCallDelta) : Option String :=
  delta.function.bind FunctionCallDelta.name

def callId : String :=
  ((firstDelta deltas index).bind ToolCallDelta.id).getD ""

def callName : String :=
  ((firstDelta deltas index).bind deltaName).getD ""

def deltasBeforeNext : List ToolCallDelta :=
  deltas.takeWhile (·.index ≠ some (index + 1))

def Starts (delta : ToolCallDelta) : Prop :=
  delta.index = some index ∧ (∃ id, delta.id = some id ∧ id ≠ "") ∧
    ∃ name, deltaName delta = some name ∧ name ≠ ""

def Continues (count : Nat) (delta : ToolCallDelta) : Prop :=
  (∃ index < count, delta.index = some index) ∧ delta.id.getD "" = "" ∧
    (deltaName delta).getD "" = ""

/-- The deltas go on from `started` calls to `count` calls, each started in its turn. -/
def StreamsCalls : Nat → Nat → List ToolCallDelta → Prop
  | started, count, [] => started = count
  | started, count, delta :: rest =>
    Starts started delta ∧ StreamsCalls (started + 1) count rest ∨
      Continues started delta ∧ StreamsCalls started count rest

def FinishFollowsCalls (pieces : List Piece) : Prop :=
  ∀ before reason after, pieces = before ++ .finish reason :: after → toolDeltas after = []

theorem finishFollowsCalls_nil : FinishFollowsCalls [] := by
  intro before reason after parts
  simp at parts

variable (piece : Piece) (rest : List Piece)

theorem finishFollowsCalls_cons :
    FinishFollowsCalls (piece :: rest) ↔
      (∀ reason, piece = .finish reason → toolDeltas rest = []) ∧ FinishFollowsCalls rest := by
  constructor
  · intro ordered
    constructor
    · intro reason finishes
      exact ordered [] reason rest (by simp [finishes])
    · intro before reason after parts
      exact ordered (piece :: before) reason after (by simp [parts])
  · rintro ⟨first, later⟩ before reason after parts
    cases before with
    | nil =>
      simp only [nil_append, cons.injEq] at parts
      exact parts.2 ▸ first reason parts.1
    | cons head before =>
      simp only [cons_append, cons.injEq] at parts
      exact later before reason after parts.2

theorem FinishFollowsCalls.tail {piece : Piece} {rest : List Piece}
    (ordered : FinishFollowsCalls (piece :: rest)) : FinishFollowsCalls rest :=
  ((finishFollowsCalls_cons piece rest).mp ordered).2

def doneItem : Sent → Option ResponseItem
  | .ok (.outputItemDone item) => some item
  | _ => none

variable (sent : List Sent)

def doneItems : List ResponseItem :=
  sent.filterMap doneItem

def toolCallOf : ResponseItem → Option ResponseItem
  | .functionCall name namespaceName arguments callId =>
    some (.functionCall name namespaceName arguments callId)
  | .customToolCall callId name input => some (.customToolCall callId name input)
  | _ => none

def messageText : ResponseItem → Option String
  | .message _ _ text => some text
  | _ => none

def reasoningText : ResponseItem → Option String
  | .reasoning _ text => some text
  | _ => none

def completedCalls : List ResponseItem :=
  (doneItems sent).filterMap toolCallOf

def messageTexts : List String :=
  (doneItems sent).filterMap messageText

def reasoningTexts : List String :=
  (doneItems sent).filterMap reasoningText

def itemTexts (arriving : Piece → Option String) (kept : String → String) :
    Bool → String → List Piece → List String
  | started, text, [] => if started then [text] else []
  | started, text, piece :: rest =>
    match arriving piece with
    | some delta => itemTexts arriving kept true (text ++ delta) rest
    | none =>
      if started ∧ piece = .finish "tool_calls" then
        text :: itemTexts arriving kept false (kept text) rest
      else itemTexts arriving kept started text rest

def Arrives (pieces : List Piece) : Prop :=
  ∃ piece ∈ pieces, (arriving piece).isSome

/-- Text before a `tool_calls` finish is empty when more text arrives after it. -/
def FreshText (text : String) (pieces : List Piece) : Prop :=
  ∀ before after, pieces = before ++ .finish "tool_calls" :: after → Arrives arriving after →
    text ++ streamed arriving before = ""

section Texts

variable {arriving : Piece → Option String}

theorem streamed_cons :
    streamed arriving (piece :: rest) = (arriving piece).getD "" ++ streamed arriving rest := by
  cases arrives : arriving piece with
  | none | some => simp [streamed, arrives]

theorem join_itemTexts_taken (started : Bool) (text : String) (pieces : List Piece)
    (held : started = false → text = "") :
    String.join (itemTexts arriving (fun _ => "") started text pieces) =
      text ++ streamed arriving pieces := by
  induction pieces generalizing started text with
  | nil => cases started <;> simp_all [itemTexts, streamed]
  | cons piece rest ih =>
    rw [streamed_cons]
    cases arrives : arriving piece with
    | some delta =>
      rw [itemTexts, arrives, ih true (text ++ delta) (by simp)]
      simp [String.append_assoc]
    | none =>
      rw [itemTexts, arrives]
      by_cases finishes : started ∧ piece = .finish "tool_calls"
      · simp [finishes, ih false "" (by simp)]
      · simp [finishes, ih started text held]

theorem arrives_cons :
    Arrives arriving (piece :: rest) ↔ (arriving piece).isSome ∨ Arrives arriving rest := by
  simp [Arrives]

theorem freshText_nil (text : String) : FreshText arriving text [] := by
  intro before after parts
  simp at parts

theorem freshText_cons (text : String) (piece : Piece) (rest : List Piece) :
    FreshText arriving text (piece :: rest) ↔
      (piece = .finish "tool_calls" → Arrives arriving rest → text = "") ∧
        FreshText arriving (text ++ (arriving piece).getD "") rest := by
  constructor
  · intro fresh
    constructor
    · intro finishes arrives
      simpa [streamed] using fresh [] rest (by simp [finishes]) arrives
    · intro before after parts arrives
      have empty := fresh (piece :: before) after (by simp [parts]) arrives
      rwa [streamed_cons, ← String.append_assoc] at empty
  · rintro ⟨first, later⟩ before after parts arrives
    cases before with
    | nil =>
      simp only [nil_append, cons.injEq] at parts
      simpa [streamed] using first parts.1 (parts.2 ▸ arrives)
    | cons head before =>
      simp only [cons_append, cons.injEq] at parts
      have empty := later before after parts.2 arrives
      rw [streamed_cons, ← String.append_assoc, ← parts.1]
      exact empty

theorem length_le_join_itemTexts_kept (started : Bool) (text : String) (pieces : List Piece) :
    (if started then text.length else 0) + (streamed arriving pieces).length ≤
      (String.join (itemTexts arriving id started text pieces)).length := by
  induction pieces generalizing started text with
  | nil => cases started <;> simp [itemTexts, streamed]
  | cons piece rest ih =>
    rw [streamed_cons, itemTexts]
    cases arrives : arriving piece with
    | some delta =>
      have later := ih true (text ++ delta)
      simp only [if_true, String.length_append] at later
      simp only [getD_some, String.length_append]
      cases started <;> simp only [if_true, Bool.false_eq_true, if_false] <;> omega
    | none =>
      by_cases finishes : started ∧ piece = .finish "tool_calls"
      · have later := ih false (id text)
        simp [finishes] at later ⊢
        omega
      · simpa [finishes] using ih started text

theorem join_itemTexts_kept (unfinished : ∀ reason, arriving (.finish reason) = none)
    (started : Bool) (text : String) (pieces : List Piece) :
    String.join (itemTexts arriving id started text pieces) =
        (if started then text else "") ++ streamed arriving pieces ↔
      (started = false → Arrives arriving pieces → text = "") ∧ FreshText arriving text pieces := by
  induction pieces generalizing started text with
  | nil => cases started <;> simp [itemTexts, streamed, Arrives, freshText_nil]
  | cons piece rest ih =>
    rw [streamed_cons, itemTexts, freshText_cons, arrives_cons]
    cases arrives : arriving piece with
    | some delta =>
      have goesOn : piece ≠ .finish "tool_calls" := by
        intro finishes
        simp [finishes, unfinished] at arrives
      have later := ih true (text ++ delta)
      have bound : (text ++ delta).length + (streamed arriving rest).length ≤
          (String.join (itemTexts arriving id true (text ++ delta) rest)).length :=
        length_le_join_itemTexts_kept true (text ++ delta) rest
      cases started with
      | true => simpa [goesOn, String.append_assoc] using later
      | false =>
        by_cases empty : text = ""
        · simpa [empty] using later
        · -- An item was completed with this text, and the next one repeats it.
          have positive : text.length ≠ 0 := by simpa using empty
          have longer : String.join (itemTexts arriving id true (text ++ delta) rest) ≠
              delta ++ streamed arriving rest := by
            intro same
            simp only [same, String.length_append] at bound
            omega
          simp [longer, empty]
    | none =>
      by_cases finishes : started ∧ piece = .finish "tool_calls"
      · simpa [finishes] using ih false text
      · have later := ih started text
        cases started with
        | true => simp_all
        | false =>
          simp only [getD_none, String.append_empty, String.empty_append] at later ⊢
          grind

end Texts

def callsFrom : Nat → Option PartialToolCall → List ToolCallDelta → List PartialToolCall
  | _, current, [] => current.toList
  | started, current, delta :: rest =>
    if delta.index = some started then
      current.toList ++ callsFrom (started + 1) (some (PartialToolCall.extend {} delta)) rest
    else if delta.index = some (started - 1) then
      callsFrom started (current.map (PartialToolCall.extend · delta)) rest
    else callsFrom started current rest

def earlyCall : PartialToolCall where
  id := some (callId deltas index)
  name := some (callName deltas index)
  arguments := fragments (deltasBeforeNext deltas index) index

section Calls

theorem fragments_cons (delta : ToolCallDelta) (rest : List ToolCallDelta) (index : Nat) :
    fragments (delta :: rest) index =
      (if delta.index = some index then argumentFragment delta else "") ++ fragments rest index := by
  by_cases here : delta.index = some index <;> simp [fragments, here]

variable {delta : ToolCallDelta} {index count : Nat} {deltas : List ToolCallDelta}

theorem deltasBeforeNext_cons_of_ne (other : delta.index ≠ some (index + 1))
    (rest : List ToolCallDelta) :
    deltasBeforeNext (delta :: rest) index = delta :: deltasBeforeNext rest index := by
  simp [deltasBeforeNext, other]

theorem earlyCall_cons_of_ne (other : delta.index ≠ some index)
    (notNext : delta.index ≠ some (index + 1)) (rest : List ToolCallDelta) :
    earlyCall (delta :: rest) index = earlyCall rest index := by
  simp [earlyCall, callId, callName, firstDelta, deltasBeforeNext_cons_of_ne notNext,
    fragments_cons, other]

theorem map_earlyCall_cons {first : Nat} (here : delta.index = some index) (below : index < first)
    (length : Nat) (rest : List ToolCallDelta) :
    (range' first length).map (earlyCall (delta :: rest)) =
      (range' first length).map (earlyCall rest) := by
  apply map_congr_left
  intro later member
  have bounds := mem_range'_1.mp member
  apply earlyCall_cons_of_ne
  · rw [here, ne_eq, some.injEq]
    omega
  · rw [here, ne_eq, some.injEq]
    omega

theorem earlyCall_cons_of_starts (starts : Starts index delta) (rest : List ToolCallDelta) :
    earlyCall (delta :: rest) index = { PartialToolCall.extend {} delta with
        arguments := argumentFragment delta ++ fragments (deltasBeforeNext rest index) index } := by
  obtain ⟨here, ⟨id, carriesId, idNonempty⟩, name, carriesName, nameNonempty⟩ := starts
  have notNext : delta.index ≠ some (index + 1) := by simp [here]
  have named : delta.function.bind FunctionCallDelta.name = some name := carriesName
  simp [earlyCall, callId, callName, firstDelta, deltasBeforeNext_cons_of_ne notNext,
    fragments_cons, here, carriesId, carriesName, named, PartialToolCall.extend, idNonempty,
    nameNonempty, Option.filter]

theorem filter_ne_empty_of_getD {text : Option String} (absent : text.getD "" = "") :
    text.filter (· ≠ "") = none := by
  cases text with
  | none => rfl
  | some text => simpa using absent

theorem extend_of_continues (continues : Continues count delta) (call : PartialToolCall) :
    call.extend delta = { call with arguments := call.arguments ++ argumentFragment delta } := by
  have noId := filter_ne_empty_of_getD continues.2.1
  have noName := filter_ne_empty_of_getD continues.2.2
  rw [deltaName] at noName
  simp only [PartialToolCall.extend, noId, noName, none_or, argumentFragment]

theorem started_le_of_streamsCalls {started : Nat} (streams : StreamsCalls started count deltas) :
    started ≤ count := by
  induction deltas generalizing started with
  | nil => exact Nat.le_of_eq streams
  | cons delta rest ih =>
    cases streams with
    | inl starts => exact Nat.le_of_succ_le (ih starts.2)
    | inr continues => exact ih continues.2

theorem callsFrom_current {started : Nat} (call : PartialToolCall)
    (streams : StreamsCalls (started + 1) count deltas) :
    callsFrom (started + 1) (some call) deltas = { call with
        arguments := call.arguments ++ fragments (deltasBeforeNext deltas started) started } ::
        (range' (started + 1) (count - (started + 1))).map (earlyCall deltas) := by
  induction deltas generalizing started call with
  | nil =>
    have same : started + 1 = count := streams
    simp [callsFrom, ← same, deltasBeforeNext, fragments]
  | cons delta rest ih =>
    cases streams with
    | inl starts =>
      have here := starts.1.1
      have room := started_le_of_streamsCalls starts.2
      have length : count - (started + 1) = count - (started + 1 + 1) + 1 := by omega
      rw [callsFrom, ih _ starts.2, length, range'_succ, map_cons,
        map_earlyCall_cons here (Nat.lt_succ_self _), earlyCall_cons_of_starts starts.1]
      simp [deltasBeforeNext, here, fragments, PartialToolCall.extend, argumentFragment]
    | inr continues =>
      obtain ⟨index, below, here⟩ := continues.1.1
      have notNext : delta.index ≠ some (started + 1) := by
        rw [here, ne_eq, some.injEq]
        omega
      rw [callsFrom, if_neg notNext, map_earlyCall_cons here below,
        deltasBeforeNext_cons_of_ne notNext, fragments_cons]
      by_cases current : delta.index = some started
      · rw [if_pos current, if_pos (by simpa using current), map_some,
          extend_of_continues continues.1, ih _ continues.2]
        simp [String.append_assoc]
      · rw [if_neg current, if_neg (by simpa using current), ih _ continues.2]
        simp

theorem callsFrom_none (streams : StreamsCalls 0 count deltas) :
    callsFrom 0 none deltas = (List.range count).map (earlyCall deltas) := by
  cases deltas with
  | nil =>
    have same : 0 = count := streams
    simp [callsFrom, ← same]
  | cons delta rest =>
    cases streams with
    | inl starts =>
      have here := starts.1.1
      have room := started_le_of_streamsCalls starts.2
      have length : count = count - 1 + 1 := by omega
      rw [callsFrom, if_pos here, callsFrom_current _ starts.2, range_eq_range', length,
        range'_succ, map_cons, map_earlyCall_cons here (Nat.lt_succ_self _),
        earlyCall_cons_of_starts starts.1]
      simp [PartialToolCall.extend, argumentFragment]
    | inr continues =>
      obtain ⟨index, below, _⟩ := continues.1.1
      omega

end Calls

end OpenInterpreter.ChatPieces
