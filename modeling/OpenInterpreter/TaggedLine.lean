import OpenInterpreter.Text

/-! The line parser of `utils/stream-parser/src/tagged_line_parser.rs`. -/

namespace OpenInterpreter.TaggedLine

open Text List

structure TagSpec (τ : Type) where
  openTag : List Char
  closeTag : List Char
  tag : τ

inductive TaggedLineSegment (τ : Type) where
  | normal (text : List Char)
  | tagStart (tag : τ)
  | tagDelta (tag : τ) (text : List Char)
  | tagEnd (tag : τ)
  deriving DecidableEq

structure TaggedLineParser (τ : Type) where
  specs : List (TagSpec τ)
  activeTag : Option τ
  detectTag : Bool
  lineBuffer : List Char

variable {τ : Type} [DecidableEq τ]

def TaggedLineParser.new (specs : List (TagSpec τ)) : TaggedLineParser τ := ⟨specs, none, true, []⟩

variable (segments : List (TaggedLineSegment τ))

def pushSegment : TaggedLineSegment τ → List (TaggedLineSegment τ)
  | .normal text =>
    if text = [] then segments
    else
      match segments.getLast? with
      | some (.normal existing) => segments.dropLast ++ [.normal (existing ++ text)]
      | _ => segments ++ [.normal text]
  | .tagDelta tag text =>
    if text = [] then segments
    else
      match segments.getLast? with
      | some (.tagDelta existingTag existing) =>
        if existingTag = tag then
          segments.dropLast ++ [.tagDelta existingTag (existing ++ text)]
        else segments ++ [.tagDelta tag text]
      | _ => segments ++ [.tagDelta tag text]
  | segment => segments ++ [segment]

variable (parser : TaggedLineParser τ)

def TaggedLineParser.textSegment (text : List Char) : TaggedLineSegment τ :=
  match parser.activeTag with
  | some tag => .tagDelta tag text
  | none => .normal text

def TaggedLineParser.pushText (text : List Char)
    (segments : List (TaggedLineSegment τ)) : List (TaggedLineSegment τ) :=
  pushSegment segments (parser.textSegment text)

def TaggedLineParser.isTagPrefix (slug : List Char) : Bool :=
  parser.specs.any (fun spec =>
    (trimEnd slug).isPrefixOf spec.openTag || (trimEnd slug).isPrefixOf spec.closeTag)

def TaggedLineParser.matchOpen (slug : List Char) : Option τ :=
  (parser.specs.find? (fun spec => spec.openTag == slug)).map TagSpec.tag

def TaggedLineParser.matchClose (slug : List Char) : Option τ :=
  (parser.specs.find? (fun spec => spec.closeTag == slug)).map TagSpec.tag

def stripNewline (line : List Char) : List Char :=
  if line.getLast? = some '\n' then line.dropLast else line

def TaggedLineParser.lineSegment (line : List Char) : TaggedLineSegment τ × Option τ :=
  let slug := trimEnd (trimStart (stripNewline line))
  match parser.matchOpen slug, parser.activeTag with
  | some tag, none => (.tagStart tag, some tag)
  | _, active =>
    match parser.matchClose slug with
    | some tag =>
      if active = some tag then (.tagEnd tag, none)
      else (parser.textSegment line, active)
    | none => (parser.textSegment line, active)

def TaggedLineParser.finishLine : TaggedLineParser τ × List (TaggedLineSegment τ) :=
  let finished := parser.lineSegment parser.lineBuffer
  ({ parser with activeTag := finished.2, detectTag := true, lineBuffer := [] },
    pushSegment segments finished.1)

/-- The locals of `parse`. -/
structure ParseState (τ : Type) where
  parser : TaggedLineParser τ
  segments : List (TaggedLineSegment τ)
  run : List Char

variable (state : ParseState τ)

def ParseState.flush : List (TaggedLineSegment τ) :=
  if state.run = [] then state.segments else state.parser.pushText state.run state.segments

def TaggedLineParser.bufferChar (ch : Char) : TaggedLineParser τ :=
  { parser with lineBuffer := parser.lineBuffer ++ [ch] }

def parseChar (ch : Char) : ParseState τ :=
  if state.parser.detectTag then
    let segments := state.flush
    let parser := state.parser.bufferChar ch
    if ch = '\n' then
      let finished := parser.finishLine segments
      ⟨finished.1, finished.2, []⟩
    else
      let slug := trimStart parser.lineBuffer
      if slug = [] ∨ parser.isTagPrefix slug then ⟨parser, segments, []⟩
      else
        ⟨{ parser with detectTag := false, lineBuffer := [] },
          parser.pushText parser.lineBuffer segments, []⟩
  else
    let run := state.run ++ [ch]
    if ch = '\n' then
      ⟨{ state.parser with detectTag := true }, state.parser.pushText run state.segments, []⟩
    else ⟨state.parser, state.segments, run⟩

def TaggedLineParser.parse (delta : List Char) : List (TaggedLineSegment τ) × TaggedLineParser τ :=
  let state := delta.foldl parseChar ⟨parser, [], []⟩
  (state.flush, state.parser)

def TaggedLineParser.finish : List (TaggedLineSegment τ) × TaggedLineParser τ :=
  let finished :=
    if parser.lineBuffer = [] then (parser, []) else parser.finishLine []
  let closed := match finished.1.activeTag with
    | some tag => pushSegment finished.2 (.tagEnd tag)
    | none => finished.2
  (closed, { finished.1 with activeTag := none, detectTag := true, lineBuffer := [] })

def TaggedLineSegment.singles {τ : Type} : TaggedLineSegment τ → List (TaggedLineSegment τ)
  | .normal text => text.map (fun ch => .normal [ch])
  | .tagDelta tag text => text.map (fun ch => .tagDelta tag [ch])
  | segment => [segment]

def explode {τ : Type} (segments : List (TaggedLineSegment τ)) : List (TaggedLineSegment τ) :=
  segments.flatMap TaggedLineSegment.singles

omit [DecidableEq τ] in
theorem explode_append (left right : List (TaggedLineSegment τ)) :
    explode (left ++ right) = explode left ++ explode right := flatMap_append

omit [DecidableEq τ] in
theorem explode_singleton (segment : TaggedLineSegment τ) :
    explode [segment] = segment.singles := flatMap_singleton ..

open TaggedLineSegment

theorem explode_pushSegment (segment : TaggedLineSegment τ) :
    explode (pushSegment segments segment) = explode segments ++ segment.singles := by
  have added (other : TaggedLineSegment τ) :
      explode (segments ++ [other]) = explode segments ++ other.singles := by
    rw [explode_append, explode_singleton]
  cases segment with
  | tagStart | tagEnd => exact added _
  | normal text =>
    by_cases empty : text = []
    · simp [pushSegment, empty, singles]
    · simp only [pushSegment, if_neg empty]
      split
      · rename_i existing last
        conv_rhs => rw [← dropLast_append_getLast? _ last]
        rw [explode_append, explode_append, explode_singleton, explode_singleton]
        simp [singles]
      · exact added _
  | tagDelta tag text =>
    by_cases empty : text = []
    · simp [pushSegment, empty, singles]
    · simp only [pushSegment, if_neg empty]
      split
      · rename_i existingTag existing last
        split
        · rename_i same
          subst same
          conv_rhs => rw [← dropLast_append_getLast? _ last]
          rw [explode_append, explode_append, explode_singleton, explode_singleton]
          simp [singles]
        · exact added _
      · exact added _

def TaggedLineSegment.Solid {τ : Type} : TaggedLineSegment τ → Prop
  | .normal text => text ≠ []
  | .tagDelta _ text => text ≠ []
  | _ => True

theorem pushSegment_solid {segments : List (TaggedLineSegment τ)} {segment : TaggedLineSegment τ}
    (solid : ∀ other ∈ segments, other.Solid) :
    ∀ other ∈ pushSegment segments segment, other.Solid := by
  have added (new : TaggedLineSegment τ) (filled : new.Solid) :
      ∀ other ∈ segments ++ [new], other.Solid := by
    simpa [or_imp, forall_and, filled] using solid
  have replaced (new : TaggedLineSegment τ) (filled : new.Solid) :
      ∀ other ∈ segments.dropLast ++ [new], other.Solid := by
    intro other member
    rcases mem_append.mp member with old | same
    · exact solid other (mem_of_mem_dropLast old)
    · rw [mem_singleton.mp same]
      exact filled
  cases segment with
  | tagStart | tagEnd => exact added _ trivial
  | normal text =>
    by_cases empty : text = []
    · simpa [pushSegment, if_pos empty] using solid
    · simp only [pushSegment, if_neg empty]
      split
      · exact replaced _ (by simp [TaggedLineSegment.Solid, empty])
      · exact added _ empty
  | tagDelta tag text =>
    by_cases empty : text = []
    · simpa [pushSegment, if_pos empty] using solid
    · simp only [pushSegment, if_neg empty]
      split
      · split
        · exact replaced _ (by simp [TaggedLineSegment.Solid, empty])
        · exact added _ empty
      · exact added _ empty

/-- One character of `parse` with its output given at once: the segments it adds, in
single characters, and the parser after it. -/
def emit (ch : Char) : List (TaggedLineSegment τ) × TaggedLineParser τ :=
  if parser.detectTag then
    let parser := parser.bufferChar ch
    if ch = '\n' then
      ((parser.lineSegment parser.lineBuffer).1.singles, (parser.finishLine []).1)
    else
      let slug := trimStart parser.lineBuffer
      if slug = [] ∨ parser.isTagPrefix slug then ([], parser)
      else
        ((parser.textSegment parser.lineBuffer).singles,
          { parser with detectTag := false, lineBuffer := [] })
  else
    ((parser.textSegment [ch]).singles,
      if ch = '\n' then { parser with detectTag := true } else parser)

def emitAll (parser : TaggedLineParser τ) :
    List Char → List (TaggedLineSegment τ) × TaggedLineParser τ
  | [] => ([], parser)
  | ch :: rest =>
    let first := emit parser ch
    let later := emitAll first.2 rest
    (first.1 ++ later.1, later.2)

theorem emitAll_append (left right : List Char) (parser : TaggedLineParser τ) :
    emitAll parser (left ++ right) =
      ((emitAll parser left).1 ++ (emitAll (emitAll parser left).2 right).1,
        (emitAll (emitAll parser left).2 right).2) := by
  induction left generalizing parser with
  | nil => rfl
  | cons ch left ih => simp [emitAll, ih]

variable (parser : TaggedLineParser τ)

omit [DecidableEq τ] in
theorem singles_textSegment_append (left right : List Char) :
    (parser.textSegment (left ++ right)).singles =
      (parser.textSegment left).singles ++ (parser.textSegment right).singles := by
  unfold TaggedLineParser.textSegment
  cases parser.activeTag <;> simp [singles]

theorem explode_flush :
    explode state.flush = explode state.segments ++ (state.parser.textSegment state.run).singles := by
  unfold ParseState.flush
  split
  · rename_i empty
    rw [empty]
    unfold TaggedLineParser.textSegment
    cases state.parser.activeTag <;> simp [singles]
  · exact explode_pushSegment ..

theorem explode_parseChar (ch : Char) :
    explode (parseChar state ch).flush = explode state.flush ++ (emit state.parser ch).1 ∧
      (parseChar state ch).parser = (emit state.parser ch).2 := by
  unfold parseChar emit
  dsimp only
  by_cases detect : state.parser.detectTag = true
  · rw [if_pos detect, if_pos detect]
    by_cases newline : ch = '\n'
    · rw [if_pos newline, if_pos newline]
      exact ⟨explode_pushSegment .., rfl⟩
    · rw [if_neg newline]
      split
      · exact ⟨(append_nil _).symm, rfl⟩
      · exact ⟨explode_pushSegment .., rfl⟩
  · rw [if_neg detect, explode_flush state]
    split
    · constructor
      · rw [append_assoc, ← singles_textSegment_append]
        exact explode_pushSegment ..
      · rfl
    · constructor
      · rw [explode_flush, singles_textSegment_append, append_assoc]
      · rfl

theorem parse_eq_emitAll (delta : List Char) (parser : TaggedLineParser τ) :
    explode (parser.parse delta).1 = (emitAll parser delta).1 ∧
      (parser.parse delta).2 = (emitAll parser delta).2 := by
  have fold (delta : List Char) (state : ParseState τ) :
      explode (delta.foldl parseChar state).flush =
          explode state.flush ++ (emitAll state.parser delta).1 ∧
        (delta.foldl parseChar state).parser = (emitAll state.parser delta).2 := by
    induction delta generalizing state with
    | nil => simp [emitAll]
    | cons ch delta ih =>
      obtain ⟨shown, next⟩ := explode_parseChar state ch
      obtain ⟨rest, last⟩ := ih (parseChar state ch)
      rw [foldl_cons, rest, last, shown, next, append_assoc]
      exact ⟨rfl, rfl⟩
  have start := fold delta ⟨parser, [], []⟩
  simpa [TaggedLineParser.parse, ParseState.flush, explode] using start

theorem parse_solid {delta : List Char} {parser : TaggedLineParser τ} :
    ∀ segment ∈ (parser.parse delta).1, segment.Solid := by
  have flushed (state : ParseState τ) (solid : ∀ segment ∈ state.segments, segment.Solid) :
      ∀ segment ∈ state.flush, segment.Solid := by
    unfold ParseState.flush
    split
    · exact solid
    · exact pushSegment_solid solid
  have step (state : ParseState τ) (ch : Char)
      (solid : ∀ segment ∈ state.segments, segment.Solid) :
      ∀ segment ∈ (parseChar state ch).segments, segment.Solid := by
    unfold parseChar
    dsimp only
    split
    · split
      · exact pushSegment_solid (flushed state solid)
      · split
        · exact flushed state solid
        · exact pushSegment_solid (flushed state solid)
    · split
      · exact pushSegment_solid solid
      · exact solid
  have fold (delta : List Char) (state : ParseState τ)
      (solid : ∀ segment ∈ state.segments, segment.Solid) :
      ∀ segment ∈ (delta.foldl parseChar state).segments, segment.Solid := by
    induction delta generalizing state with
    | nil => exact solid
    | cons ch delta ih => exact ih _ (step state ch solid)
  exact flushed _ (fold delta ⟨parser, [], []⟩ (by simp))

theorem finish_solid : ∀ segment ∈ parser.finish.1, segment.Solid := by
  have line : ∀ segment ∈ (if parser.lineBuffer = [] then (parser, [])
      else parser.finishLine []).2, segment.Solid := by
    split
    · simp
    · exact pushSegment_solid (by simp)
  unfold TaggedLineParser.finish
  dsimp only
  split
  · exact pushSegment_solid line
  · exact line

end OpenInterpreter.TaggedLine
