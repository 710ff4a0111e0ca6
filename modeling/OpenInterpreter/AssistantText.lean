import OpenInterpreter.InlineHiddenTag
import OpenInterpreter.TaggedLine

/-! Assistant text streaming: `citation.rs`, `proposed_plan.rs` and `assistant_text.rs` of
`utils/stream-parser`, the citation parser feeding the plan parser. -/

namespace OpenInterpreter.AssistantText

open InlineHiddenTag TaggedLine List

inductive CitationTag where
  | citation
  deriving DecidableEq

def citationOpen : List Char := "<oai-mem-citation>".toList

def citationClose : List Char := "</oai-mem-citation>".toList

abbrev CitationStreamParser := InlineHiddenTagParser CitationTag

def CitationStreamParser.new : CitationStreamParser :=
  InlineHiddenTagParser.new [⟨.citation, citationOpen, citationClose, by decide, by decide⟩]

def bodies (chunk : StreamTextChunk (ExtractedInlineTag CitationTag)) :
    StreamTextChunk (List Char) :=
  ⟨chunk.visibleText, chunk.extracted.map ExtractedInlineTag.content⟩

inductive PlanTag where
  | proposedPlan
  deriving DecidableEq

inductive ProposedPlanSegment where
  | normal (text : List Char)
  | proposedPlanStart
  | proposedPlanDelta (text : List Char)
  | proposedPlanEnd
  deriving DecidableEq

abbrev ProposedPlanParser := TaggedLineParser PlanTag

def ProposedPlanParser.new : ProposedPlanParser :=
  TaggedLineParser.new [⟨"<proposed_plan>".toList, "</proposed_plan>".toList, .proposedPlan⟩]

def mapSegment : TaggedLineSegment PlanTag → ProposedPlanSegment
  | .normal text => .normal text
  | .tagStart .proposedPlan => .proposedPlanStart
  | .tagDelta .proposedPlan text => .proposedPlanDelta text
  | .tagEnd .proposedPlan => .proposedPlanEnd

def normalText : TaggedLineSegment PlanTag → List Char
  | .normal text => text
  | _ => []

def mapSegments (segments : List (TaggedLineSegment PlanTag)) :
    StreamTextChunk ProposedPlanSegment :=
  ⟨segments.flatMap normalText, segments.map mapSegment⟩

structure AssistantTextChunk where
  visibleText : List Char
  citations : List (List Char)
  planSegments : List ProposedPlanSegment
  deriving DecidableEq

def AssistantTextChunk.empty : AssistantTextChunk := ⟨[], [], []⟩

instance : Append AssistantTextChunk where
  append left right := ⟨left.visibleText ++ right.visibleText, left.citations ++ right.citations,
    left.planSegments ++ right.planSegments⟩

structure AssistantTextStreamParser where
  planMode : Bool
  citations : CitationStreamParser
  plan : ProposedPlanParser

def AssistantTextStreamParser.new (planMode : Bool) : AssistantTextStreamParser :=
  ⟨planMode, CitationStreamParser.new, ProposedPlanParser.new⟩

def AssistantTextStreamParser.parseVisibleText (parser : AssistantTextStreamParser)
    (visibleText : List Char) : AssistantTextChunk × AssistantTextStreamParser :=
  if parser.planMode then
    let parsed := parser.plan.parse visibleText
    let planChunk := mapSegments parsed.1
    (⟨planChunk.visibleText, [], planChunk.extracted⟩, { parser with plan := parsed.2 })
  else (⟨visibleText, [], []⟩, parser)

def AssistantTextStreamParser.pushStr (parser : AssistantTextStreamParser) (chunk : List Char) :
    AssistantTextChunk × AssistantTextStreamParser :=
  let pushed := parser.citations.pushStr chunk
  let citationChunk := bodies pushed.1
  let out := { parser with citations := pushed.2 }.parseVisibleText citationChunk.visibleText
  ({ out.1 with citations := citationChunk.extracted }, out.2)

def AssistantTextStreamParser.finish (parser : AssistantTextStreamParser) :
    AssistantTextChunk × AssistantTextStreamParser :=
  let finished := parser.citations.finish
  let citationChunk := bodies finished.1
  let out := { parser with citations := finished.2 }.parseVisibleText citationChunk.visibleText
  if parser.planMode then
    let closed := out.2.plan.finish
    let tail := mapSegments closed.1
    (⟨out.1.visibleText ++ tail.visibleText, citationChunk.extracted,
      out.1.planSegments ++ tail.extracted⟩, { out.2 with plan := closed.2 })
  else ({ out.1 with citations := citationChunk.extracted }, out.2)

def AssistantTextStreamParser.feed (parser : AssistantTextStreamParser) :
    List (List Char) → AssistantTextChunk × AssistantTextStreamParser
  | [] => (.empty, parser)
  | chunk :: chunks =>
    let pushed := parser.pushStr chunk
    let rest := pushed.2.feed chunks
    (pushed.1 ++ rest.1, rest.2)

def parseChunks (planMode : Bool) (chunks : List (List Char)) : AssistantTextChunk :=
  let fed := (AssistantTextStreamParser.new planMode).feed chunks
  fed.1 ++ fed.2.finish.1

def joinSegment : ProposedPlanSegment → List ProposedPlanSegment → List ProposedPlanSegment
  | .normal text, .normal next :: rest => .normal (text ++ next) :: rest
  | .proposedPlanDelta text, .proposedPlanDelta next :: rest =>
    .proposedPlanDelta (text ++ next) :: rest
  | segment, rest => segment :: rest

def mergeAdjacent (segments : List ProposedPlanSegment) : List ProposedPlanSegment :=
  segments.foldr joinSegment []

theorem foldr_pieces {wrap : List Char → ProposedPlanSegment}
    (joins : ∀ first second rest, joinSegment (wrap first) (joinSegment (wrap second) rest) =
      joinSegment (wrap (first ++ second)) rest)
    {text : List Char} (solid : text ≠ []) (rest : List ProposedPlanSegment) :
    (text.map fun ch => wrap [ch]).foldr joinSegment rest = joinSegment (wrap text) rest := by
  induction text with
  | nil => exact absurd rfl solid
  | cons ch text ih =>
    cases text with
    | nil => rfl
    | cons next text =>
      rw [map_cons, foldr_cons, ih (cons_ne_nil _ _)]
      exact joins [ch] (next :: text) rest

theorem foldr_singles (segment : TaggedLineSegment PlanTag) (solid : segment.Solid)
    (rest : List ProposedPlanSegment) :
    (segment.singles.map mapSegment).foldr joinSegment rest =
      joinSegment (mapSegment segment) rest := by
  cases segment with
  | tagStart | tagEnd => rfl
  | normal text | tagDelta tag text =>
    simp only [TaggedLineSegment.singles, map_map]
    refine foldr_pieces (fun first second rest => ?_) solid rest
    cases rest with
    | nil => rfl
    | cons head tail => cases head <;> simp [joinSegment]

theorem mergeAdjacent_explode {segments : List (TaggedLineSegment PlanTag)}
    (solid : ∀ segment ∈ segments, segment.Solid) :
    mergeAdjacent ((explode segments).map mapSegment) =
      mergeAdjacent (segments.map mapSegment) := by
  unfold mergeAdjacent explode
  induction segments with
  | nil => rfl
  | cons head tail ih =>
    rw [flatMap_cons, map_append, foldr_append,
      ih (fun segment member => solid segment (mem_cons_of_mem _ member)),
      foldr_singles head (solid head mem_cons_self), map_cons, foldr_cons]

theorem normalText_explode (segments : List (TaggedLineSegment PlanTag)) :
    (explode segments).flatMap normalText = segments.flatMap normalText := by
  unfold explode
  rw [flatMap_assoc]
  refine flatMap_congr fun segment _ => ?_
  cases segment with
  | normal | tagDelta => simp [TaggedLineSegment.singles, normalText, flatMap_map]
  | tagStart | tagEnd => rfl

@[simp] theorem visibleText_append (left right : AssistantTextChunk) :
    (left ++ right).visibleText = left.visibleText ++ right.visibleText := rfl

@[simp] theorem citations_append (left right : AssistantTextChunk) :
    (left ++ right).citations = left.citations ++ right.citations := rfl

@[simp] theorem planSegments_append (left right : AssistantTextChunk) :
    (left ++ right).planSegments = left.planSegments ++ right.planSegments := rfl

structure Renders (out : AssistantTextChunk) (segments : List (TaggedLineSegment PlanTag)) :
    Prop where
  visible : out.visibleText = segments.flatMap normalText
  planned : out.planSegments = segments.map mapSegment
  solid : ∀ segment ∈ segments, segment.Solid

theorem Renders.append {first second : AssistantTextChunk}
    {left right : List (TaggedLineSegment PlanTag)} (before : Renders first left)
    (after : Renders second right) : Renders (first ++ second) (left ++ right) := by
  constructor
  · rw [visibleText_append, before.visible, after.visible, flatMap_append]
  · rw [planSegments_append, before.planned, after.planned, map_append]
  · intro segment member
    rcases mem_append.mp member with old | new
    · exact before.solid segment old
    · exact after.solid segment new

theorem Renders.unique {first second : AssistantTextChunk}
    {left right : List (TaggedLineSegment PlanTag)} (one : Renders first left)
    (other : Renders second right) (same : explode left = explode right) :
    first.visibleText = second.visibleText ∧
      mergeAdjacent first.planSegments = mergeAdjacent second.planSegments := by
  constructor
  · rw [one.visible, other.visible, ← normalText_explode left, same, normalText_explode]
  · rw [one.planned, other.planned, ← mergeAdjacent_explode one.solid, same,
      mergeAdjacent_explode other.solid]

/-- What the chunks become before the last call: the citation parser's output, and in
plan mode the line parser's reading of the visible part of it. -/
structure Fed (parser : AssistantTextStreamParser) (chunks : List (List Char))
    (out : AssistantTextChunk) (next : AssistantTextStreamParser) : Prop where
  planMode : next.planMode = parser.planMode
  citations : next.citations = (parser.citations.feed chunks).2
  extracted : out.citations =
    (parser.citations.feed chunks).1.extracted.map ExtractedInlineTag.content
  direct : parser.planMode = false →
    out.visibleText = (parser.citations.feed chunks).1.visibleText ∧ out.planSegments = []
  plan : parser.planMode = true → ∃ segments, Renders out segments ∧
    explode segments = (emitAll parser.plan (parser.citations.feed chunks).1.visibleText).1 ∧
    next.plan = (emitAll parser.plan (parser.citations.feed chunks).1.visibleText).2

variable (parser : AssistantTextStreamParser)

open AssistantTextStreamParser

theorem push_fed (chunk : List Char) :
    Fed parser [chunk] (parser.pushStr chunk).1 (parser.pushStr chunk).2 := by
  have fed : parser.citations.feed [chunk] =
      ((parser.citations.pushStr chunk).1, (parser.citations.pushStr chunk).2) := by
    simp [InlineHiddenTagParser.feed]
  unfold pushStr parseVisibleText
  dsimp only
  constructor
  · split <;> rfl
  · split <;> rfl
  · rw [fed]
    rfl
  · intro off
    rw [fed, if_neg (by simp [off])]
    exact ⟨rfl, rfl⟩
  · intro on
    rw [fed, if_pos on]
    obtain ⟨shown, next⟩ := parse_eq_emitAll (parser.citations.pushStr chunk).1.visibleText
      parser.plan
    exact ⟨_, ⟨rfl, rfl, parse_solid⟩, shown, next⟩

variable (chunks : List (List Char))

theorem feed_fed (parser : AssistantTextStreamParser) :
    Fed parser chunks (parser.feed chunks).1 (parser.feed chunks).2 := by
  induction chunks generalizing parser with
  | nil =>
    exact ⟨rfl, rfl, rfl, fun _ => ⟨rfl, rfl⟩,
      fun _ => ⟨[], ⟨rfl, rfl, by simp⟩, rfl, rfl⟩⟩
  | cons chunk chunks ih =>
    have first := push_fed parser chunk
    have rest := ih (parser.pushStr chunk).2
    have one : parser.citations.feed [chunk] = parser.citations.pushStr chunk := by
      simp [InlineHiddenTagParser.feed]
    have fed : parser.citations.feed (chunk :: chunks) = ((parser.citations.pushStr chunk).1 ++
            ((parser.pushStr chunk).2.citations.feed chunks).1,
          ((parser.pushStr chunk).2.citations.feed chunks).2) := by
      rw [first.citations]
      rfl
    constructor
    · exact rest.planMode.trans first.planMode
    · rw [fed]
      exact rest.citations
    · have total : (parser.feed (chunk :: chunks)).1.citations =
          (parser.pushStr chunk).1.citations ++
            ((parser.pushStr chunk).2.feed chunks).1.citations := rfl
      rw [total, first.extracted, rest.extracted, fed, one, ← map_append]
      rfl
    · intro off
      obtain ⟨visible, none⟩ := first.direct off
      obtain ⟨visibleRest, noneRest⟩ := rest.direct (first.planMode.trans off)
      rw [one] at visible
      rw [fed]
      constructor
      · exact congrArg₂ (· ++ ·) visible visibleRest
      · exact congrArg₂ (· ++ ·) none noneRest
    · intro on
      obtain ⟨left, renders, shown, next⟩ := first.plan on
      obtain ⟨right, rendersRest, shownRest, last⟩ := rest.plan (first.planMode.trans on)
      rw [one] at shown next
      rw [next] at shownRest last
      refine ⟨left ++ right, renders.append rendersRest, ?_, ?_⟩
      · rw [explode_append, shown, shownRest, fed, StreamTextChunk.visibleText_append,
          emitAll_append]
      · rw [fed, StreamTextChunk.visibleText_append, emitAll_append]
        exact last

theorem finish_renders (on : parser.planMode = true) :
    ∃ segments, Renders parser.finish.1 segments ∧ explode segments =
        (emitAll parser.plan parser.citations.finish.1.visibleText).1 ++
          explode (emitAll parser.plan parser.citations.finish.1.visibleText).2.finish.1 := by
  obtain ⟨shown, next⟩ := parse_eq_emitAll parser.citations.finish.1.visibleText parser.plan
  refine ⟨(parser.plan.parse parser.citations.finish.1.visibleText).1 ++
    (parser.plan.parse parser.citations.finish.1.visibleText).2.finish.1, ⟨?_, ?_, ?_⟩, ?_⟩
  · simp [finish, parseVisibleText, on, mapSegments, bodies]
  · simp [finish, parseVisibleText, on, mapSegments, bodies]
  · intro segment member
    rcases mem_append.mp member with parsed | closed
    · exact parse_solid segment parsed
    · exact finish_solid _ segment closed
  · rw [explode_append, shown, next]

theorem finish_direct (off : parser.planMode = false) :
    parser.finish.1.visibleText = parser.citations.finish.1.visibleText ∧
      parser.finish.1.planSegments = [] := by
  simp [finish, parseVisibleText, off, bodies]

theorem finish_citations :
    parser.finish.1.citations =
      parser.citations.finish.1.extracted.map ExtractedInlineTag.content := by
  unfold finish
  split <;> rfl

theorem citations_feed_flatten :
    CitationStreamParser.new.feed chunks = CitationStreamParser.new.feed [chunks.flatten] := by
  have flat : NoNesting CitationStreamParser.new.specs := by
    intro inner innerIn outer outerIn _
    rw [mem_singleton.mp innerIn, mem_singleton.mp outerIn]
  rw [feed_eq_pushStr chunks _ flat (new_settled _), feed_eq_pushStr _ _ flat (new_settled _)]
  simp

/-- Parsing a text in chunks shows the same text, citations and, once adjacent segments
are joined, the same plan segments as parsing it whole. -/
theorem chunking_irrelevant (planMode : Bool) (chunks : List (List Char)) :
    (parseChunks planMode chunks).visibleText =
        (parseChunks planMode [chunks.flatten]).visibleText ∧
      (parseChunks planMode chunks).citations = (parseChunks planMode [chunks.flatten]).citations ∧
      mergeAdjacent (parseChunks planMode chunks).planSegments =
        mergeAdjacent (parseChunks planMode [chunks.flatten]).planSegments := by
  have same := citations_feed_flatten chunks
  have one := feed_fed chunks (.new planMode)
  have other := feed_fed [chunks.flatten] (.new planMode)
  unfold parseChunks
  generalize (AssistantTextStreamParser.new planMode).feed chunks = left at one ⊢
  generalize (AssistantTextStreamParser.new planMode).feed [chunks.flatten] = right at other ⊢
  have initial : (AssistantTextStreamParser.new planMode).citations = .new := rfl
  have stack : left.2.citations = right.2.citations := by
    rw [one.citations, other.citations, initial, same]
  have cited : (left.1 ++ left.2.finish.1).citations = (right.1 ++ right.2.finish.1).citations := by
    rw [citations_append, citations_append, one.extracted, other.extracted, initial, same,
      finish_citations, finish_citations, stack]
  cases planMode with
  | false =>
    obtain ⟨leftVisible, leftPlan⟩ := one.direct rfl
    obtain ⟨rightVisible, rightPlan⟩ := other.direct rfl
    obtain ⟨leftEnd, leftDone⟩ := finish_direct left.2 one.planMode
    obtain ⟨rightEnd, rightDone⟩ := finish_direct right.2 other.planMode
    refine ⟨?_, cited, ?_⟩
    · rw [visibleText_append, visibleText_append, leftVisible, rightVisible, leftEnd, rightEnd,
        initial, same, stack]
    · rw [planSegments_append, planSegments_append, leftPlan, rightPlan, leftDone, rightDone]
  | true =>
    obtain ⟨leftSegments, leftRenders, leftShown, leftNext⟩ := one.plan rfl
    obtain ⟨rightSegments, rightRenders, rightShown, rightNext⟩ := other.plan rfl
    obtain ⟨leftTail, leftTailRenders, leftTailShown⟩ := finish_renders left.2 one.planMode
    obtain ⟨rightTail, rightTailRenders, rightTailShown⟩ := finish_renders right.2 other.planMode
    have exploded : explode (leftSegments ++ leftTail) = explode (rightSegments ++ rightTail) := by
      rw [explode_append, explode_append, leftShown, rightShown, leftTailShown, rightTailShown,
        leftNext, rightNext, stack, initial, same]
    obtain ⟨visible, planned⟩ := (leftRenders.append leftTailRenders).unique
      (rightRenders.append rightTailRenders) exploded
    exact ⟨visible, cited, planned⟩

end OpenInterpreter.AssistantText
