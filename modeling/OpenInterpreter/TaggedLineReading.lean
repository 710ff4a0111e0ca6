import OpenInterpreter.TaggedLine

/-! The line parser read line by line: a whole line is a tag or text, whatever the chunks. -/

namespace OpenInterpreter.TaggedLineReading

open TaggedLine Text List TaggedLineParser

variable {τ : Type} [DecidableEq τ]

def splitInclusive (text : List Char) : List (List Char) :=
  (cutLines text).1.map (· ++ ['\n']) ++ if (cutLines text).2 = [] then [] else [(cutLines text).2]

/-- A line is an opener while no tag is active, a closer of the active tag, or text. -/
def readLine (specs : List (TagSpec τ)) (line : List Char) :
    Option τ → TaggedLineSegment τ × Option τ
  | none =>
    match specs.find? (fun spec => spec.openTag == trim line) with
    | some spec => (.tagStart spec.tag, some spec.tag)
    | none => (.normal line, none)
  | some tag =>
    if specs.any fun spec => spec.tag == tag && spec.closeTag == trim line then
      (.tagEnd tag, none)
    else (.tagDelta tag line, some tag)

def readLines (specs : List (TagSpec τ)) (active : Option τ) :
    List (List Char) → List (TaggedLineSegment τ)
  | [] => active.toList.map .tagEnd
  | line :: lines =>
    (readLine specs line active).1 :: readLines specs (readLine specs line active).2 lines

def merge (segments : List (TaggedLineSegment τ)) : List (TaggedLineSegment τ) :=
  segments.foldl pushSegment []

def output (parser : TaggedLineParser τ) : List (List Char) → List (TaggedLineSegment τ)
  | [] => parser.finish.1
  | chunk :: chunks => (parser.parse chunk).1 ++ output (parser.parse chunk).2 chunks

variable (segments : List (TaggedLineSegment τ))

theorem foldl_singles (segment : TaggedLineSegment τ) :
    segment.singles.foldl pushSegment segments = pushSegment segments segment := by
  cases segment with
  | tagStart | tagEnd => rfl
  | normal text | tagDelta tag text =>
    rw [TaggedLineSegment.singles]
    induction text using reverseRecOn with
    | nil => rfl
    | append_singleton text ch ih =>
      rw [map_append, foldl_append, ih]
      by_cases empty : text = []
      · simp [pushSegment, empty]
      · cases last : segments.getLast? with
        | none => simp [pushSegment, empty, last]
        | some segment => cases segment <;> grind [pushSegment]

theorem merge_explode : merge (explode segments) = merge segments := by
  rw [merge, explode, foldl_flatMap, merge]
  simp [foldl_singles]

def atLine (specs : List (TagSpec τ)) (active : Option τ) : TaggedLineParser τ :=
  ⟨specs, active, true, []⟩

def NoTag (parser : TaggedLineParser τ) (text : List Char) : Prop :=
  ∀ more, parser.matchOpen (trim (text ++ more)) = none ∧
    parser.matchClose (trim (text ++ more)) = none

omit [DecidableEq τ] in
theorem trimEnd_prefix (text more : List Char) : trimEnd text <+: trimEnd (text ++ more) := by
  by_cases blank : Blank more
  · rw [trimEnd_append_blank text blank]
  · rw [trimEnd_append_solid text more blank]
    obtain ⟨space, whole, -⟩ := trimEnd_split text
    exact ⟨space ++ trimEnd more, by rw [← append_assoc, ← whole]⟩

variable (parser : TaggedLineParser τ)

omit [DecidableEq τ] in
theorem noTag_of_rejected (text : List Char)
    (rejected : ¬ (trimStart text = [] ∨ parser.isTagPrefix (trimStart text) = true)) :
    NoTag parser text := by
  obtain ⟨solid, other⟩ := not_or.mp rejected
  have away (spec : TagSpec τ) (mem : spec ∈ parser.specs) (more : List Char) :
      spec.openTag ≠ trim (text ++ more) ∧ spec.closeTag ≠ trim (text ++ more) := by
    have front : trimEnd (trimStart text) <+: trim (text ++ more) := by
      rw [trim, trimStart_append text more fun blank => solid ((trimStart_eq_nil text).mpr blank)]
      exact trimEnd_prefix _ _
    constructor
    · intro same
      refine other (any_eq_true.mpr ⟨spec, mem, ?_⟩)
      rw [same, isPrefixOf_iff_prefix.mpr front, Bool.true_or]
    · intro same
      refine other (any_eq_true.mpr ⟨spec, mem, ?_⟩)
      rw [same, isPrefixOf_iff_prefix.mpr front, Bool.or_true]
  intro more
  rw [matchOpen, matchClose, Option.map_eq_none_iff,
    Option.map_eq_none_iff, find?_eq_none, find?_eq_none]
  exact ⟨fun spec mem same => (away spec mem more).1 (eq_of_beq same),
    fun spec mem same => (away spec mem more).2 (eq_of_beq same)⟩

variable (specs : List (TagSpec τ)) (active : Option τ)

theorem emit_line (text : List Char) {ch : Char} (other : ch ≠ '\n') :
    emit ⟨specs, active, true, text⟩ ch = ([], ⟨specs, active, true, text ++ [ch]⟩) ∨
      emit ⟨specs, active, true, text⟩ ch =
          (((atLine specs active).textSegment (text ++ [ch])).singles, ⟨specs, active, false, []⟩) ∧
        NoTag (atLine specs active) (text ++ [ch]) := by
  by_cases keep : trimStart (text ++ [ch]) = [] ∨
      (atLine specs active).isTagPrefix (trimStart (text ++ [ch])) = true
  · left
    exact (if_neg other).trans (if_pos keep)
  · right
    exact ⟨(if_neg other).trans (if_neg keep), noTag_of_rejected _ _ keep⟩

theorem emitAll_line {text : List Char} (plain : '\n' ∉ text) :
    emitAll (atLine specs active) text = ([], ⟨specs, active, true, text⟩) ∨
      emitAll (atLine specs active) text =
          (((atLine specs active).textSegment text).singles, ⟨specs, active, false, []⟩) ∧
        NoTag (atLine specs active) text := by
  induction text using reverseRecOn with
  | nil => exact .inl rfl
  | append_singleton text ch ih =>
    have other : ch ≠ '\n' := fun same => plain (by simp [same])
    rw [emitAll_append]
    rcases ih fun early => plain (mem_append_left _ early) with held | ⟨given, free⟩
    · rw [held]
      rcases emit_line specs active text other with keep | ⟨reject, free⟩
      · exact .inl (by simp [emitAll, keep])
      · exact .inr ⟨by simp [emitAll, reject], free⟩
    · rw [given]
      refine .inr ⟨?_, fun more => ?_⟩
      · rw [singles_textSegment_append]
        simp [emitAll, emit, other, textSegment, atLine]
      · rw [append_assoc]
        exact free _

def OwnClosers (specs : List (TagSpec τ)) : Prop :=
  ∀ left ∈ specs, ∀ right ∈ specs, left.closeTag = right.closeTag → left.tag = right.tag

theorem matchClose_eq_some_iff (own : OwnClosers parser.specs) (slug : List Char) (tag : τ) :
    parser.matchClose slug = some tag ↔
      parser.specs.any (fun spec => spec.tag == tag && spec.closeTag == slug) = true := by
  rw [matchClose, Option.map_eq_some_iff, any_eq_true]
  constructor
  · rintro ⟨spec, found, rfl⟩
    refine ⟨spec, mem_of_find?_eq_some found, ?_⟩
    rw [find?_some found, beq_self_eq_true, Bool.true_and]
  · rintro ⟨spec, mem, both⟩
    rw [Bool.and_eq_true, beq_iff_eq, beq_iff_eq] at both
    cases found : parser.specs.find? (fun other => other.closeTag == slug) with
    | none => exact absurd (beq_iff_eq.mpr both.2) (find?_eq_none.mp found spec mem)
    | some first =>
      have closes : first.closeTag = slug := by simpa using find?_some found
      exact ⟨first, rfl, (own first (mem_of_find?_eq_some found) spec mem
        (closes.trans both.2.symm)).trans both.1⟩

variable (line : List Char)

theorem lineSegment_active {tag : τ} (active : parser.activeTag = some tag) :
    parser.lineSegment line =
      if parser.matchClose (trim (stripNewline line)) = some tag then (.tagEnd tag, none)
      else (.tagDelta tag line, some tag) := by
  unfold lineSegment textSegment
  rw [active, ← trim]
  dsimp only
  cases parser.matchClose (trim (stripNewline line)) with
  | none => cases parser.matchOpen (trim (stripNewline line)) <;> simp
  | some other =>
    by_cases same : tag = other
    · cases parser.matchOpen (trim (stripNewline line)) <;> simp [same]
    · cases parser.matchOpen (trim (stripNewline line)) <;> simp [same, Ne.symm same]

theorem lineSegment_inactive (active : parser.activeTag = none) :
    parser.lineSegment line =
      match parser.matchOpen (trim (stripNewline line)) with
      | some tag => (.tagStart tag, some tag)
      | none => (.normal line, none) := by
  unfold lineSegment textSegment
  rw [active, ← trim]
  dsimp only
  cases parser.matchOpen (trim (stripNewline line)) with
  | some tag => rfl
  | none => cases parser.matchClose (trim (stripNewline line)) <;> simp

variable {specs}

section

variable (own : OwnClosers specs)
include own

theorem lineSegment_eq (active : Option τ) (detect : Bool)
    (buffer : List Char) {line : List Char} (slug : trim (stripNewline line) = trim line) :
    (⟨specs, active, detect, buffer⟩ : TaggedLineParser τ).lineSegment line =
      readLine specs line active := by
  cases active with
  | none =>
    rw [lineSegment_inactive _ _ rfl, slug, readLine]
    simp only [matchOpen]
    cases specs.find? (fun spec => spec.openTag == trim line) <;> rfl
  | some tag =>
    rw [lineSegment_active _ _ rfl, slug, readLine]
    simp [matchClose_eq_some_iff ⟨specs, some tag, detect, buffer⟩ own]

theorem readLine_of_noTag {active : Option τ} {text more : List Char}
    (free : NoTag (atLine specs active) text) :
    readLine specs (text ++ more) active =
      ((atLine specs active).textSegment (text ++ more), active) := by
  have open_free := (free more).1
  have close_free := (free more).2
  cases active with
  | none =>
    simp only [matchOpen, Option.map_eq_none_iff, atLine] at open_free
    rw [readLine, open_free]
    rfl
  | some tag =>
    have closer := matchClose_eq_some_iff (atLine specs (some tag)) own (trim (text ++ more))
    rw [readLine, if_neg]
    · rfl
    · intro closes
      exact nomatch ((closer tag).mpr closes).symm.trans close_free

theorem emitAll_newline (active : Option τ) {line : List Char} (plain : '\n' ∉ line) :
    emitAll (atLine specs active) (line ++ ['\n']) =
      ((readLine specs (line ++ ['\n']) active).1.singles,
        atLine specs (readLine specs (line ++ ['\n']) active).2) := by
  rw [emitAll_append]
  rcases emitAll_line specs active plain with held | ⟨given, free⟩
  · have slug : trim (stripNewline (line ++ ['\n'])) = trim (line ++ ['\n']) := by
      rw [trim_append_blank line ['\n'] fun ch mem => by rw [mem_singleton.mp mem]; decide]
      simp [stripNewline]
    rw [held, ← lineSegment_eq own active true (line ++ ['\n']) slug]
    simp [emitAll, emit, bufferChar, finishLine, atLine]
  · rw [given, readLine_of_noTag own free, singles_textSegment_append]
    simp [emitAll, emit, textSegment, atLine]

end

theorem explode_finish :
    explode parser.finish.1 =
      if parser.lineBuffer = [] then parser.activeTag.toList.map .tagEnd
      else (parser.lineSegment parser.lineBuffer).1.singles ++
        (parser.lineSegment parser.lineBuffer).2.toList.map .tagEnd := by
  have closed (tag : Option τ) (segments : List (TaggedLineSegment τ)) :
      explode (match tag with
        | some tag => pushSegment segments (.tagEnd tag)
        | none => segments) = explode segments ++ tag.toList.map .tagEnd := by
    cases tag with
    | none => exact (append_nil _).symm
    | some tag => exact explode_pushSegment ..
  refine (closed _ _).trans ?_
  split
  · rfl
  · rw [finishLine, explode_pushSegment]
    rfl

theorem explode_readLine :
    explode (readLines specs active [line]) = (readLine specs line active).1.singles ++
        (readLine specs line active).2.toList.map .tagEnd := by
  simp only [readLines]
  cases (readLine specs line active).2 <;> rfl

theorem finish_last (own : OwnClosers specs) (active : Option τ) {last : List Char}
    (plain : '\n' ∉ last) :
    (emitAll (atLine specs active) last).1 ++
        explode (emitAll (atLine specs active) last).2.finish.1 =
      explode (readLines specs active (if last = [] then [] else [last])) := by
  by_cases empty : last = []
  · rw [if_pos empty, empty, emitAll]
    cases active <;> rfl
  · have slug : trim (stripNewline last) = trim last := by
      rw [stripNewline, if_neg fun ends => plain (mem_of_getLast? ends)]
    rw [if_neg empty, explode_readLine]
    rcases emitAll_line specs active plain with held | ⟨given, free⟩
    · rw [held, explode_finish, if_neg empty, lineSegment_eq own _ _ _ slug]
      rfl
    · have read : readLine specs (last ++ []) active = _ := readLine_of_noTag own free
      rw [append_nil] at read
      rw [given, explode_finish, if_pos rfl, read]

theorem emitAll_unlines (own : OwnClosers specs) (active : Option τ) (lines : List (List Char))
    (last : List Char) (plain : ∀ line ∈ lines, '\n' ∉ line) (end_plain : '\n' ∉ last) :
    (emitAll (atLine specs active) (unlines lines last)).1 ++
        explode (emitAll (atLine specs active) (unlines lines last)).2.finish.1 =
      explode (readLines specs active
        (lines.map (· ++ ['\n']) ++ if last = [] then [] else [last])) := by
  induction lines generalizing active with
  | nil => exact finish_last own active end_plain
  | cons line lines ih =>
    obtain ⟨first, rest⟩ := forall_mem_cons.mp plain
    have later := ih (readLine specs (line ++ ['\n']) active).2 rest
    have whole : unlines (line :: lines) last = line ++ ['\n'] ++ unlines lines last := by
      simp [unlines]
    rw [whole, emitAll_append, emitAll_newline own active first, append_assoc, later]
    simp [readLines, explode]

theorem explode_output (chunks : List (List Char)) :
    explode (output parser chunks) =
      (emitAll parser chunks.flatten).1 ++ explode (emitAll parser chunks.flatten).2.finish.1 := by
  induction chunks generalizing parser with
  | nil => rfl
  | cons chunk chunks ih =>
    obtain ⟨shown, next⟩ := parse_eq_emitAll chunk parser
    rw [output, explode_append, ih, shown, next, flatten_cons, emitAll_append, append_assoc]

/-- Whatever the chunks, the parser gives the meaning of the text line by line, as long as
no closer belongs to two tags. -/
theorem output_eq_readLines (specs : List (TagSpec τ)) (own : OwnClosers specs)
    (chunks : List (List Char)) :
    merge (output (.new specs) chunks) =
      merge (readLines specs none (splitInclusive chunks.flatten)) := by
  obtain ⟨plain, end_plain⟩ := cutLines_plain chunks.flatten
  have read := emitAll_unlines own none _ _ plain end_plain
  rw [unlines_cutLines] at read
  rw [← merge_explode, explode_output, TaggedLineParser.new, ← atLine, read, merge_explode,
    splitInclusive]

theorem single_tag_output :
    merge (output (.new [⟨['a'], ['x'], 1⟩]) [[' ', 'a'], ['\n', 'a'], ['b', '\n', 'x']]) =
      [.tagStart 1, .tagDelta 1 ['a', 'b', '\n'], .tagEnd 1] :=
  (output_eq_readLines [⟨['a'], ['x'], 1⟩]
    (by simp [OwnClosers]) [[' ', 'a'], ['\n', 'a'], ['b', '\n', 'x']]).trans (by decide)

/-- The first tag with this closer hides the active one, whose closer is read as text. -/
theorem shared_closer_unread :
    merge (output (.new [⟨['a'], ['x'], 1⟩, ⟨['b'], ['x'], 2⟩]) [['b', '\n', 'x', '\n']]) =
        [.tagStart 2, .tagDelta 2 ['x', '\n'], .tagEnd 2] ∧
      merge (readLines [⟨['a'], ['x'], 1⟩, ⟨['b'], ['x'], 2⟩] none
        (splitInclusive ['b', '\n', 'x', '\n'])) = [.tagStart 2, .tagEnd 2] := by
  decide

end OpenInterpreter.TaggedLineReading
