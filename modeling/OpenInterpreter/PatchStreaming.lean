import OpenInterpreter.PatchParser

/-! Streaming a patch against parsing it whole. Both run the same line machine; they
differ in how carriage returns and the end marker's line reach it. -/

namespace OpenInterpreter.PatchStreaming

open Text PatchParser StreamingPatchParser
open List hiding modifyLast

section

variable {α : Type} {grows : α → α → Prop}

/-- `after` continues `before`: its entries grow the old ones in place, and more follow. -/
def GrowsBy (grows : α → α → Prop) (before after : List α) : Prop :=
  ∃ kept added, after = kept ++ added ∧ Forall₂ grows before kept

theorem GrowsBy.append [Std.Refl grows] (items more : List α) :
    GrowsBy grows items (items ++ more) :=
  ⟨items, more, rfl, forall₂_refl items⟩

theorem GrowsBy.refl [Std.Refl grows] (items : List α) : GrowsBy grows items items :=
  ⟨items, [], (append_nil _).symm, forall₂_refl items⟩

theorem GrowsBy.trans [IsTrans α grows] {first second third : List α}
    (one : GrowsBy grows first second) (two : GrowsBy grows second third) :
    GrowsBy grows first third := by
  obtain ⟨kept, added, rfl, forward⟩ := one
  obtain ⟨later, more, rfl, onward⟩ := two
  have front : Forall₂ grows kept (later.take kept.length) := by
    simpa using forall₂_take kept.length onward
  refine ⟨later.take kept.length, later.drop kept.length ++ more, ?_, ?_⟩
  · rw [← append_assoc, take_append_drop]
  · generalize later.take kept.length = next at front
    clear onward
    induction forward generalizing next with
    | nil =>
      cases front
      exact .nil
    | cons head tail ih =>
      cases front with
      | cons step rest => exact .cons (IsTrans.trans _ _ _ head step) (ih _ rest)

theorem GrowsBy.replace_last [Std.Refl grows] (front : List α) {item next : α}
    (step : grows item next) : GrowsBy grows (front ++ [item]) (front ++ [next]) := by
  refine ⟨front ++ [next], [], (append_nil _).symm, ?_⟩
  exact rel_append (forall₂_refl front) (.cons step .nil)

theorem GrowsBy.length_le {before after : List α} (grown : GrowsBy grows before after) :
    before.length ≤ after.length := by
  obtain ⟨kept, added, rfl, forward⟩ := grown
  rw [length_append, forward.length_eq]
  exact Nat.le_add_right _ _

theorem GrowsBy.common_last (front : List α) {one two : α} {after : List α}
    (left : GrowsBy grows (front ++ [one]) after) (right : GrowsBy grows (front ++ [two]) after) :
    ∃ item, grows one item ∧ grows two item := by
  have last (item : α) (grown : GrowsBy grows (front ++ [item]) after) :
      ∃ next, after[front.length]? = some next ∧ grows item next := by
    obtain ⟨kept, added, rfl, forward⟩ := grown
    obtain ⟨next, here, step⟩ : ∃ next, kept[front.length]? = some next ∧ grows item next := by
      clear left right
      induction front generalizing kept with
      | nil =>
        cases forward with
        | cons step rest => exact ⟨_, rfl, step⟩
      | cons head front ih =>
        cases forward with
        | cons step rest => exact ih _ rest
    exact ⟨next, by rw [getElem?_append_left (List.getElem?_eq_some_iff.mp here).1, here], step⟩
  obtain ⟨next, here, step⟩ := last one left
  obtain ⟨other, there, move⟩ := last two right
  cases here.symm.trans there
  exact ⟨next, step, move⟩

end

def ChunkGrows (before after : UpdateFileChunk) : Prop :=
  before.oldLines <+: after.oldLines ∧ before.newLines <+: after.newLines

inductive HunkGrows : Hunk → Hunk → Prop where
  | addFile (path : PatchPath) {before after : List Char} (more : before <+: after) :
      HunkGrows (.addFile path before) (.addFile path after)
  | deleteFile (path : PatchPath) : HunkGrows (.deleteFile path) (.deleteFile path)
  | updateFile (path : PatchPath) (movePath nextPath : Option PatchPath)
      {before after : List UpdateFileChunk} (more : GrowsBy ChunkGrows before after) :
      HunkGrows (.updateFile path movePath before) (.updateFile path nextPath after)

instance : Std.Refl ChunkGrows := ⟨fun _ => ⟨prefix_rfl, prefix_rfl⟩⟩

instance : IsTrans UpdateFileChunk ChunkGrows :=
  ⟨fun _ _ _ one two => ⟨one.1.trans two.1, one.2.trans two.2⟩⟩

theorem HunkGrows.refl (hunk : Hunk) : HunkGrows hunk hunk := by
  cases hunk with
  | addFile path contents => exact .addFile path prefix_rfl
  | deleteFile path => exact .deleteFile path
  | updateFile path movePath chunks =>
    exact .updateFile path movePath movePath (.refl chunks)

theorem HunkGrows.trans {first second third : Hunk} (one : HunkGrows first second)
    (two : HunkGrows second third) : HunkGrows first third := by
  cases one with
  | addFile path more =>
    cases two with
    | addFile _ further => exact .addFile path (more.trans further)
  | deleteFile path => exact two
  | updateFile path movePath nextPath more =>
    cases two with
    | updateFile _ _ lastPath further =>
      exact .updateFile path movePath lastPath (more.trans further)

instance : Std.Refl HunkGrows := ⟨HunkGrows.refl⟩

instance : IsTrans Hunk HunkGrows := ⟨fun _ _ _ => HunkGrows.trans⟩

abbrev HunksGrow := GrowsBy HunkGrows

variable {α : Type} {line trimmed text last first space : List Char} {chunk : UpdateFileChunk}
    {lineNumber : Nat} {movePath : Option PatchPath} {chunks : List UpdateFileChunk}
    {updated : Option PatchPath × List UpdateFileChunk} {parser next : StreamingPatchParser}
    {checked middle : List (List Char)} {args : ApplyPatchArgs}

theorem last_split {items : List α} {item : α} (last : items.getLast? = some item) :
    items = items.dropLast ++ [item] := (dropLast_append_getLast? item last).symm

theorem GrowsBy.modify_last {grows : α → α → Prop} [Std.Refl grows] {items : List α}
    {item next : α} (last : items.getLast? = some item) (step : grows item next) :
    GrowsBy grows items (items.dropLast ++ [next]) := by
  have grown := GrowsBy.replace_last items.dropLast step
  rw [← last_split last] at grown
  exact grown

theorem pushUpdateLine_grows {next : UpdateFileChunk}
    (pushed : pushUpdateLine line chunk = some next) : ChunkGrows chunk next := by
  unfold pushUpdateLine at pushed
  split at pushed <;> cases pushed
  · exact ⟨prefix_append _ _, prefix_append _ _⟩
  · exact ⟨prefix_append _ _, prefix_append _ _⟩
  · exact ⟨prefix_rfl, prefix_append _ _⟩
  · exact ⟨prefix_append _ _, prefix_rfl⟩

theorem ensureChunk_grows (chunks : List UpdateFileChunk) :
    GrowsBy ChunkGrows chunks (ensureChunk chunks) := by
  cases chunks with
  | nil => exact ⟨[], [.default], rfl, .nil⟩
  | cons chunk chunks => exact GrowsBy.refl _

theorem modifyLast_grows (change : UpdateFileChunk → UpdateFileChunk)
    (grows : ∀ chunk, ChunkGrows chunk (change chunk)) (chunks : List UpdateFileChunk) :
    GrowsBy ChunkGrows chunks (modifyLast change chunks) := by
  unfold modifyLast
  cases last : chunks.getLast? with
  | none =>
    rw [getLast?_eq_none_iff.mp last]
    exact GrowsBy.refl []
  | some chunk => exact GrowsBy.modify_last last (grows chunk)

section

variable (done : updateHunkLine lineNumber line movePath chunks = .ok updated)
include done

theorem updateHunkLine_cases :
    updated.2 = chunks ∨
      (∃ context, updated.2 = chunks ++ [{ UpdateFileChunk.default with changeContext := context }]) ∨
      updated.2 = modifyLast (fun chunk => { chunk with isEndOfFile := true }) chunks ∨
      ∃ last next, (ensureChunk chunks).getLast? = some last ∧
        pushUpdateLine line last = some next ∧
        updated.2 = (ensureChunk chunks).dropLast ++ [next] := by
  unfold updateHunkLine at done
  dsimp only at done
  split at done
  · cases done
    exact .inl rfl
  split at done
  · cases done
  split at done
  · cases done
    exact .inl rfl
  split at done
  · cases done
  split at done
  · cases done
    exact .inr (.inl ⟨none, rfl⟩)
  split at done
  · cases done
    exact .inr (.inl ⟨some _, rfl⟩)
  split at done
  · split at done
    · cases done
    · cases done
      exact .inr (.inr (.inl rfl))
  split at done
  · rename_i next pushed
    cases done
    obtain ⟨last, present, step⟩ := Option.bind_eq_some_iff.mp pushed
    exact .inr (.inr (.inr ⟨last, next, present, step, rfl⟩))
  · split at done <;> cases done

theorem updateHunkLine_grows : GrowsBy ChunkGrows chunks updated.2 := by
  rcases updateHunkLine_cases done with same | ⟨context, header⟩ | ended |
    ⟨last, next, present, step, pushed⟩
  · rw [same]
    exact GrowsBy.refl _
  · rw [header]
    exact GrowsBy.append _ _
  · rw [ended]
    exact modifyLast_grows (fun chunk => { chunk with isEndOfFile := true })
      (fun _ => ⟨prefix_rfl, prefix_rfl⟩) chunks
  · rw [pushed]
    exact (ensureChunk_grows chunks).trans
      (GrowsBy.modify_last present (pushUpdateLine_grows step))

end

def hunkChunks : Hunk → List UpdateFileChunk
  | .updateFile _ _ chunks => chunks
  | _ => []

variable {action : Except ParseError α}

theorem bind_ok {β : Type} {rest : α → Except ParseError β}
    {result : β} (done : (action >>= rest) = .ok result) :
    ∃ value, action = .ok value ∧ rest value = .ok result := by
  cases action with
  | error reason => cases done
  | ok value => exact ⟨value, rfl, done⟩

theorem map_ok {β : Type} {change : α → β} {result : β} (done : action.map change = .ok result) :
    ∃ value, action = .ok value ∧ change value = result := by
  cases action with
  | error reason => cases done
  | ok value => exact ⟨value, rfl, Except.ok.inj done⟩

section

variable (handled : parser.handleHunkHeadersAndEndPatch trimmed = .ok (some next))
include handled

theorem handle_cases :
    (∃ environmentId, next = { parser with environmentId := some environmentId }) ∨
      (trimmed = endPatchMarker ∧ parser.ensureUpdateHunkIsNotEmpty trimmed = .ok () ∧
        next = { parser with mode := .endedPatch }) ∨
      ∃ hunk mode, next = { parser with hunks := parser.hunks ++ [hunk], mode := mode } ∧
        mode ≠ .notStarted ∧ hunkChunks hunk = [] := by
  have started (hunk : Hunk) (mode : StreamingParserMode)
      (begun : parser.startHunk trimmed hunk mode = .ok (some next)) :
      next = { parser with hunks := parser.hunks ++ [hunk], mode := mode } := by
    obtain ⟨_, -, made⟩ := bind_ok begun
    cases made
    rfl
  unfold handleHunkHeadersAndEndPatch at handled
  split at handled
  · split at handled
    · cases handled
    · split at handled
      · cases handled
      · cases handled
        exact .inl ⟨_, rfl⟩
  · split at handled
    · rename_i marker
      obtain ⟨_, ensured, closed⟩ := bind_ok handled
      cases closed
      exact .inr (.inl ⟨marker, ensured, rfl⟩)
    · split at handled
      · exact .inr (.inr ⟨_, _, started _ _ handled, by simp, rfl⟩)
      · exact .inr (.inr ⟨_, _, started _ _ handled, by simp, rfl⟩)
      · exact .inr (.inr ⟨_, _, started _ _ handled, by simp, rfl⟩)
      · cases handled

structure LineEffect (parser next : StreamingPatchParser) : Prop where
  lineBuffer : next.lineBuffer = parser.lineBuffer
  lineNumber : next.lineNumber = parser.lineNumber
  hunks : HunksGrow parser.hunks next.hunks

theorem handle_effect : LineEffect parser next := by
  rcases handle_cases handled with ⟨_, rfl⟩ | ⟨-, -, rfl⟩ | ⟨hunk, mode, rfl, -⟩
  · exact ⟨rfl, rfl, GrowsBy.refl _⟩
  · exact ⟨rfl, rfl, GrowsBy.refl _⟩
  · exact ⟨rfl, rfl, GrowsBy.append _ _⟩

end

def headerText (parser : StreamingPatchParser) (line : List Char) : List Char :=
  match parser.mode with
  | .updateFile _ => trimEnd line
  | _ => trim line

theorem processLine_cases (processed : parser.processLine line = .ok next) :
    (parser.mode = .notStarted ∧ trim line = beginPatchMarker ∧
        next = { parser with mode := .startedPatch }) ∨
      (parser.mode ≠ .notStarted ∧ parser.mode ≠ .endedPatch ∧
        parser.handleHunkHeadersAndEndPatch (headerText parser line) = .ok (some next)) ∨
      (parser.mode = .addFile ∧ parser.handleHunkHeadersAndEndPatch (trim line) = .ok none ∧
        ∃ text path contents, line = '+' :: text ∧
          parser.hunks.getLast? = some (.addFile path contents) ∧
          next = { parser with
            hunks := parser.hunks.dropLast ++ [.addFile path (contents ++ text ++ ['\n'])] }) ∨
      (∃ number, parser.mode = .updateFile number ∧
        parser.handleHunkHeadersAndEndPatch (trimEnd line) = .ok none ∧
        ∃ path movePath chunks updated,
          parser.hunks.getLast? = some (.updateFile path movePath chunks) ∧
          updateHunkLine parser.lineNumber line movePath chunks = .ok updated ∧
          next = { parser with
            hunks := parser.hunks.dropLast ++ [.updateFile path updated.1 updated.2] }) ∨
      (parser.mode = .endedPatch ∧ trim line = [] ∧ next = parser) := by
  unfold processLine at processed
  cases mode : parser.mode with
  | notStarted =>
    simp only [mode] at processed
    split at processed
    · cases processed
      exact .inl ⟨rfl, by assumption, rfl⟩
    · cases processed
  | endedPatch =>
    simp only [mode] at processed
    split at processed
    · cases processed
      exact .inr (.inr (.inr (.inr ⟨rfl, by assumption, rfl⟩)))
    · cases processed
  | startedPatch | deleteFile =>
    simp only [mode] at processed
    obtain ⟨answer, handled, done⟩ := bind_ok processed
    cases answer with
    | none => cases done
    | some header =>
      cases done
      exact .inr (.inl ⟨by simp, by simp, by simpa [headerText, mode] using handled⟩)
  | addFile =>
    simp only [mode] at processed
    obtain ⟨answer, handled, done⟩ := bind_ok processed
    cases answer with
    | none =>
      simp only at done
      split at done
      · rename_i text path contents last
        cases done
        exact .inr (.inr (.inl ⟨rfl, handled, text, path, contents, rfl, last, rfl⟩))
      · cases done
    | some header =>
      cases done
      exact .inr (.inl ⟨by simp, by simp, by simpa [headerText, mode] using handled⟩)
  | updateFile number =>
    simp only [mode] at processed
    obtain ⟨answer, handled, done⟩ := bind_ok processed
    cases answer with
    | none =>
      simp only at done
      split at done
      · rename_i path movePath chunks last
        obtain ⟨result, updated, made⟩ := bind_ok done
        cases made
        exact .inr (.inr (.inr (.inl
          ⟨number, rfl, handled, path, movePath, chunks, result, last, updated, rfl⟩)))
      · cases done
    | some header =>
      cases done
      exact .inr (.inl ⟨by simp, by simp, by simpa [headerText, mode] using handled⟩)

theorem processLine_header (begun : parser.mode ≠ .notStarted) (going : parser.mode ≠ .endedPatch)
    (handled : parser.handleHunkHeadersAndEndPatch (headerText parser line) = .ok (some next)) :
    parser.processLine line = .ok next := by
  unfold processLine
  unfold headerText at handled
  cases mode : parser.mode with
  | notStarted => exact absurd mode begun
  | endedPatch => exact absurd mode going
  | startedPatch | deleteFile | addFile | updateFile =>
    simp only [mode] at handled ⊢
    rw [handled]
    rfl

theorem processLine_effect (processed : parser.processLine line = .ok next) :
    LineEffect parser next := by
  rcases processLine_cases processed with ⟨-, -, rfl⟩ | ⟨-, -, handled⟩ |
    ⟨-, -, text, path, contents, -, last, rfl⟩ |
    ⟨number, -, -, path, movePath, chunks, updated, last, done, rfl⟩ | ⟨-, -, rfl⟩
  · exact ⟨rfl, rfl, GrowsBy.refl _⟩
  · exact handle_effect handled
  · have grown := GrowsBy.modify_last last
      (HunkGrows.addFile path (prefix_append contents (text ++ ['\n'])))
    rw [← append_assoc] at grown
    exact ⟨rfl, rfl, grown⟩
  · exact ⟨rfl, rfl, GrowsBy.modify_last last
      (.updateFile path movePath updated.1 (updateHunkLine_grows done))⟩
  · exact ⟨rfl, rfl, GrowsBy.refl _⟩

theorem blank_return : Blank ['\r'] := by
  intro ch member
  rw [mem_singleton.mp member]
  decide

theorem stripReturn_return (text : List Char) : stripReturn (text ++ ['\r']) = text := by
  simp [stripReturn]

theorem stripReturn_two (text : List Char) :
    stripReturn (text ++ ['\r', '\r']) = text ++ ['\r'] := by
  have split : text ++ ['\r', '\r'] = (text ++ ['\r']) ++ ['\r'] := by simp
  rw [split, stripReturn_return]

theorem stripReturn_twice (line : List Char) :
    stripReturn (stripReturn line) = stripReturn line ∨ ∃ text, line = text ++ ['\r', '\r'] := by
  by_cases first : line.getLast? = some '\r'
  · rw [last_split first, stripReturn_return]
    by_cases second : line.dropLast.getLast? = some '\r'
    · right
      refine ⟨line.dropLast.dropLast, ?_⟩
      conv_lhs => rw [last_split second]
      simp
    · left
      rw [stripReturn, if_neg second]
  · left
    have same : stripReturn line = line := if_neg first
    rw [same, same]

def isUpdateText : List Char → Bool
  | [] => true
  | ' ' :: _ => true
  | '+' :: _ => true
  | '-' :: _ => true
  | _ => false

theorem pushUpdateLine_text {next : UpdateFileChunk}
    (pushed : pushUpdateLine line chunk = some next) : isUpdateText line = true := by
  unfold pushUpdateLine at pushed
  split at pushed
  · rfl
  · rfl
  · rfl
  · rfl
  · cases pushed

def lastChunkEnded (parser : StreamingPatchParser) : Bool :=
  match parser.hunks.getLast? with
  | some (.updateFile _ _ chunks) => chunks.getLast?.any UpdateFileChunk.isEndOfFile
  | _ => false

/-- The line ends in two carriage returns and its text goes into a hunk, where streaming
keeps one of them and whole-text parsing none. -/
def KeepsReturn (parser : StreamingPatchParser) (line : List Char) : Prop :=
  ∃ text, line = text ++ ['\r', '\r'] ∧ (parser.mode = .addFile ∧ (∃ rest, text = '+' :: rest) ∨
      ∃ number, parser.mode = .updateFile number ∧ lastChunkEnded parser = false ∧
        isUpdateText text = true)

theorem updateHunkLine_return (done : updateHunkLine lineNumber text movePath chunks = .ok updated)
    (marker : chunks.getLast?.any UpdateFileChunk.isEndOfFile = true ∨ isUpdateText text = false) :
    updateHunkLine lineNumber (text ++ ['\r']) movePath chunks = .ok updated := by
  unfold updateHunkLine at done ⊢
  dsimp only at done ⊢
  rw [trimEnd_append_blank text blank_return]
  -- every branch but the last reads the trimmed line only
  split_ifs at done ⊢ with _ context _ _ plain named _ _
  any_goals exact done
  all_goals
    split at done
    · rename_i chunk pushed
      obtain ⟨last, -, step⟩ := Option.bind_eq_some_iff.mp pushed
      rcases marker with ended | other
      · -- after the end of file only a context marker is taken
        simp [ended, isContextMarker, plain, named] at context
      · rw [pushUpdateLine_text step] at other
        cases other
    · cases done

theorem processLine_return (processed : parser.processLine text = .ok next)
    (free : ¬ KeepsReturn parser (text ++ ['\r', '\r'])) :
    parser.processLine (text ++ ['\r']) = .ok next := by
  have same := trim_append_blank text _ blank_return
  have sameEnd := trimEnd_append_blank text blank_return
  rcases processLine_cases processed with ⟨mode, marker, rfl⟩ | ⟨other, going, handled⟩ |
    ⟨mode, -, rest, path, contents, rfl, last, rfl⟩ |
    ⟨number, mode, none, path, movePath, chunks, updated, last, done, rfl⟩ | ⟨mode, blank, rfl⟩
  · simp [processLine, mode, same, marker]
  · refine processLine_header other going ?_
    rw [← handled]
    congr 1
    unfold headerText
    split
    · exact sameEnd
    · exact same
  · exact absurd ⟨_, rfl, .inl ⟨mode, rest, rfl⟩⟩ free
  · have marker : chunks.getLast?.any UpdateFileChunk.isEndOfFile = true ∨
        isUpdateText text = false := by
      by_contra both
      rw [not_or, Bool.not_eq_false] at both
      exact free ⟨text, rfl, .inr ⟨number, mode, by simp [lastChunkEnded, last, both.1], both.2⟩⟩
    simp [processLine, mode, sameEnd, none, last,
      updateHunkLine_return done marker, bind, Except.bind, pure, Except.pure]
  · simp [processLine, mode, same, blank]

theorem trimEnd_head {ch : Char} (other : text.head? ≠ some ch) :
    (trimEnd text).head? ≠ some ch := by
  intro same
  obtain ⟨rest, whole⟩ := rdropWhile_prefix isWhitespace text
  apply other
  rw [← whole, head?_append]
  change (trimEnd text).head?.or rest.head? = some ch
  rw [same]
  rfl

theorem not_prefix_of_head (marker : List Char) {ch : Char} (starts : marker.head? = some ch)
    (other : text.head? ≠ some ch) : marker.isPrefixOf text = false := by
  cases marker with
  | nil => cases starts
  | cons first marker =>
    cases starts
    cases text with
    | nil => rfl
    | cons head text =>
      simp only [head?_cons, ne_eq, Option.some.injEq] at other
      simp [isPrefixOf, Ne.symm other]

theorem handle_other (parser : StreamingPatchParser)
    (environment : stripPrefix environmentIdMarker trimmed = none)
    (differs : trimmed ≠ endPatchMarker) :
    parser.handleHunkHeadersAndEndPatch trimmed =
      match stripPrefix addFileMarker trimmed, stripPrefix deleteFileMarker trimmed,
        stripPrefix updateFileMarker trimmed with
      | some path, _, _ => parser.startHunk trimmed (.addFile path []) .addFile
      | none, some path, _ => parser.startHunk trimmed (.deleteFile path) .deleteFile
      | none, none, some path =>
        parser.startHunk trimmed (.updateFile path none []) (.updateFile parser.lineNumber)
      | none, none, none => .ok none := by
  unfold handleHunkHeadersAndEndPatch
  rw [environment, ite_self]
  exact if_neg differs

theorem handle_none (parser : StreamingPatchParser) (other : trimmed.head? ≠ some '*') :
    parser.handleHunkHeadersAndEndPatch trimmed = .ok none := by
  have none (marker : List Char) (starts : marker.head? = some '*') :
      stripPrefix marker trimmed = none := by
    rw [stripPrefix, not_prefix_of_head marker starts other]
    rfl
  have differs : trimmed ≠ endPatchMarker := by
    rintro rfl
    exact other rfl
  rw [handle_other parser (none _ rfl) differs, none addFileMarker rfl, none deleteFileMarker rfl,
    none updateFileMarker rfl]

theorem updateHunkLine_text (going : chunks.getLast?.any UpdateFileChunk.isEndOfFile = false)
    (star : line.head? ≠ some '*') (context : line.head? ≠ some '@')
    (done : updateHunkLine lineNumber line movePath chunks = .ok updated) :
    ∃ front chunk next, ensureChunk chunks = front ++ [chunk] ∧
      pushUpdateLine line chunk = some next ∧ updated = (movePath, front ++ [next]) := by
  have named := not_prefix_of_head changeContextMarker rfl (trimEnd_head context)
  have moved := not_prefix_of_head moveToMarker rfl (trimEnd_head star)
  have plain : trimEnd line ≠ emptyChangeContextMarker := by
    intro same
    exact trimEnd_head context (same ▸ rfl)
  have inside : trimEnd line ≠ eofMarker := by
    intro same
    exact trimEnd_head star (same ▸ rfl)
  have marker : isContextMarker (trimEnd line) = false := by
    simp [isContextMarker, named, plain]
  unfold updateHunkLine at done
  simp only [going, moved, marker, plain, named, inside, Bool.false_and, Bool.and_false,
    Bool.false_eq_true, if_false] at done
  split at done
  · rename_i next pushed
    cases done
    obtain ⟨chunk, last, step⟩ := Option.bind_eq_some_iff.mp pushed
    exact ⟨_, chunk, next, last_split last, step, rfl⟩
  · split at done <;> cases done

theorem prefix_clash {front all : List α} {one two : α} (left : front ++ [one] <+: all)
    (right : front ++ [two] <+: all) : one = two := by
  have same := prefix_of_prefix_length_le left right (by simp)
  rw [prefix_append_right_inj] at same
  exact (cons_prefix_cons.mp same).1

theorem isUpdateText_head (starts : isUpdateText text = true) :
    text.head? ≠ some '*' ∧ text.head? ≠ some '@' := by
  unfold isUpdateText at starts
  split at starts <;> simp_all

theorem pushUpdateLine_clash {one two all : UpdateFileChunk}
    (left : pushUpdateLine text chunk = some one)
    (right : pushUpdateLine (text ++ ['\r']) chunk = some two) (first : ChunkGrows one all)
    (second : ChunkGrows two all) : False := by
  have differ (rest : List Char) : rest ≠ rest ++ ['\r'] := by
    intro same
    have length := congrArg List.length same
    simp at length
  unfold pushUpdateLine at left
  split at left
  · cases right
  · cases left
    cases right
    exact differ _ (prefix_clash first.1 second.1)
  · cases left
    cases right
    exact differ _ (prefix_clash first.2 second.2)
  · cases left
    cases right
    exact differ _ (prefix_clash first.1 second.1)
  · cases left

variable {number : Nat}

theorem processLine_update (mode : parser.mode = .updateFile number)
    (other : line.head? ≠ some '*') (processed : parser.processLine line = .ok next) :
    ∃ path movePath chunks result, parser.hunks.getLast? = some (.updateFile path movePath chunks) ∧
      updateHunkLine parser.lineNumber line movePath chunks = .ok result ∧
      next = { parser with
        hunks := parser.hunks.dropLast ++ [.updateFile path result.1 result.2] } := by
  rcases processLine_cases processed with ⟨wrong, -⟩ | ⟨-, -, handled⟩ | ⟨wrong, -⟩ |
    ⟨_, -, -, path, movePath, chunks, result, last, done, rfl⟩ | ⟨wrong, -⟩
  · cases mode.symm.trans wrong
  · simp only [headerText, mode, handle_none parser (trimEnd_head other)] at handled
    cases handled
  · cases mode.symm.trans wrong
  · exact ⟨path, movePath, chunks, result, last, done, rfl⟩
  · cases mode.symm.trans wrong

theorem processLine_diverges {one two : StreamingPatchParser} {after : List Hunk}
    (keeps : KeepsReturn parser (text ++ ['\r', '\r'])) (left : parser.processLine text = .ok one)
    (right : parser.processLine (text ++ ['\r']) = .ok two) (first : HunksGrow one.hunks after)
    (second : HunksGrow two.hunks after) : False := by
  obtain ⟨kept, same, starts⟩ := keeps
  obtain rfl := append_cancel_right same
  rcases starts with ⟨mode, rest, rfl⟩ | ⟨number, mode, going, starts⟩
  · have header (more : List Char) : parser.handleHunkHeadersAndEndPatch (trim ('+' :: more)) =
        .ok none := by
      apply handle_none
      have front : trimStart ('+' :: more) = '+' :: more := rfl
      rw [trim, front]
      exact trimEnd_head (by simp)
    have added (more : List Char) (next : StreamingPatchParser)
        (processed : parser.processLine ('+' :: more) = .ok next) :
        ∃ path contents, parser.hunks.getLast? = some (.addFile path contents) ∧
          next.hunks = parser.hunks.dropLast ++ [.addFile path (contents ++ more ++ ['\n'])] := by
      rcases processLine_cases processed with ⟨other, -⟩ | ⟨-, -, handled⟩ |
        ⟨-, -, body, path, contents, line, last, rfl⟩ | ⟨number, other, -⟩ | ⟨other, -⟩
      · cases mode.symm.trans other
      · simp only [headerText, mode, header] at handled
        cases handled
      · cases line
        exact ⟨path, contents, last, rfl⟩
      · cases mode.symm.trans other
      · cases mode.symm.trans other
    obtain ⟨path, contents, last, shown⟩ := added rest one left
    obtain ⟨_, _, again, other⟩ := added (rest ++ ['\r']) two right
    cases last.symm.trans again
    rw [shown] at first
    rw [other] at second
    obtain ⟨hunk, grown, grew⟩ := GrowsBy.common_last _ first second
    cases grown with
    | addFile _ more =>
      cases grew with
      | addFile _ further =>
        have shorter : contents ++ rest ++ ['\r'] <+:
            contents ++ (rest ++ ['\r']) ++ ['\n'] := ⟨['\n'], by simp⟩
        have clash := prefix_clash more (shorter.trans further)
        exact absurd clash (by decide)
  · obtain ⟨star, context⟩ := isUpdateText_head starts
    have head (ch : Char) (other : text.head? ≠ some ch) (visible : ch ≠ '\r') :
        (text ++ ['\r']).head? ≠ some ch := by
      cases text with
      | nil => simpa using Ne.symm visible
      | cons => exact other
    obtain ⟨path, movePath, chunks, result, last, done, rfl⟩ := processLine_update mode star left
    obtain ⟨_, _, _, twice, again, redone, rfl⟩ := processLine_update mode
      (head '*' star (by decide)) right
    cases last.symm.trans again
    simp only [lastChunkEnded, last] at going
    obtain ⟨front, chunk, next, split, pushed, rfl⟩ := updateHunkLine_text going star context done
    obtain ⟨_, _, nextAgain, splitAgain, pushedAgain, rfl⟩ := updateHunkLine_text going
      (head '*' star (by decide)) (head '@' context (by decide)) redone
    obtain ⟨rfl, tail⟩ := append_inj' (split.symm.trans splitAgain) rfl
    cases tail
    obtain ⟨hunk, grown, grew⟩ := GrowsBy.common_last _ first second
    cases grown with
    | updateFile _ _ _ more =>
      cases grew with
      | updateFile _ _ _ further =>
        obtain ⟨all, growing, grow⟩ := GrowsBy.common_last _ more further
        exact pushUpdateLine_clash pushed pushedAgain growing grow

def nextLine (parser : StreamingPatchParser) : StreamingPatchParser :=
  { parser with lineNumber := parser.lineNumber + 1 }

def processLines (parser : StreamingPatchParser) :
    List (List Char) → Except ParseError StreamingPatchParser
  | [] => .ok parser
  | line :: lines => (nextLine parser).processLine line >>= fun next => processLines next lines

theorem processLines_append (left right : List (List Char)) (parser : StreamingPatchParser) :
    processLines parser (left ++ right) =
      (processLines parser left >>= fun next => processLines next right) := by
  induction left generalizing parser with
  | nil => rfl
  | cons line left ih =>
    simp only [cons_append, processLines]
    cases (nextLine parser).processLine line with
    | error reason => rfl
    | ok next => exact ih next

theorem processLines_effect {lines : List (List Char)}
    (ran : processLines parser lines = .ok next) :
    next.lineBuffer = parser.lineBuffer ∧ HunksGrow parser.hunks next.hunks := by
  induction lines generalizing parser with
  | nil =>
    cases ran
    exact ⟨rfl, GrowsBy.refl _⟩
  | cons line lines ih =>
    obtain ⟨middle, first, rest⟩ := bind_ok ran
    have effect := processLine_effect first
    obtain ⟨buffer, grown⟩ := ih rest
    exact ⟨buffer.trans effect.lineBuffer, effect.hunks.trans grown⟩

theorem processLine_begun (processed : parser.processLine line = .ok next) :
    next.mode ≠ .notStarted := by
  rcases processLine_cases processed with ⟨-, -, rfl⟩ | ⟨begun, -, handled⟩ |
    ⟨mode, -, _, _, _, -, -, rfl⟩ | ⟨number, mode, -, _, _, _, _, -, -, rfl⟩ | ⟨mode, -, rfl⟩
  · simp
  · rcases handle_cases handled with ⟨_, rfl⟩ | ⟨-, -, rfl⟩ | ⟨hunk, mode, rfl, other, -⟩
    · exact begun
    · simp
    · exact other
  · simp [mode]
  · simp [mode]
  · simp [mode]

theorem processLines_begun (lines : List (List Char)) (parser next : StreamingPatchParser)
    (begun : parser.mode ≠ .notStarted) (ran : processLines parser lines = .ok next) :
    next.mode ≠ .notStarted := by
  induction lines generalizing parser with
  | nil =>
    cases ran
    exact begun
  | cons line lines ih =>
    obtain ⟨middle, first, rest⟩ := bind_ok ran
    exact ih middle (processLine_begun first) rest

theorem pushDelta_eq (text : List Char) (parser : StreamingPatchParser) :
    parser.pushDelta text = (processLines { parser with lineBuffer := [] }
          ((appendCut ([], parser.lineBuffer) (cutLines text)).1.map stripReturn)).map
        (fun next =>
          { next with lineBuffer := (appendCut ([], parser.lineBuffer) (cutLines text)).2 }) := by
  induction text generalizing parser with
  | nil =>
    simp only [cutLines, appendCut, append_nil]
    rfl
  | cons ch rest ih =>
    have unfolded : parser.pushDelta (ch :: rest) =
        (parser.pushChar ch >>= fun next => next.pushDelta rest) := rfl
    rw [unfolded, pushChar, cutLines]
    by_cases newline : ch = '\n'
    · rw [if_pos newline, if_pos newline]
      simp only [appendCut, nil_append, append_nil, map_cons, processLines, nextLine]
      cases processed : processLine
          { parser with lineBuffer := [], lineNumber := parser.lineNumber + 1 }
          (stripReturn parser.lineBuffer) with
      | error reason => rfl
      | ok next =>
        have buffer : next.lineBuffer = [] := (processLine_effect processed).lineBuffer
        have rebuilt : { next with lineBuffer := [] } = next := by rw [← buffer]
        have cut : appendCut ([], []) (cutLines rest) = cutLines rest := by
          rcases cutLines rest with ⟨_ | _, _⟩ <;> rfl
        have continued := ih next
        rw [rebuilt, buffer, cut] at continued
        exact continued
    · rw [if_neg newline, if_neg newline]
      have cut : appendCut ([], parser.lineBuffer) (consLine ch (cutLines rest)) =
          appendCut ([], parser.lineBuffer ++ [ch]) (cutLines rest) := by
        rcases cutLines rest with ⟨_ | _, _⟩ <;> simp [appendCut, consLine]
      rw [cut]
      exact ih { parser with lineBuffer := parser.lineBuffer ++ [ch] }

def ReturnsAgree (parser : StreamingPatchParser) : List (List Char) → Prop
  | [] => True
  | line :: lines =>
    ¬ KeepsReturn parser line ∧
      ∀ next, (nextLine parser).processLine (stripReturn (stripReturn line)) = .ok next →
        ReturnsAgree next lines

theorem returns_alike
    (processed : (nextLine parser).processLine (stripReturn (stripReturn line)) = .ok next)
    (free : ¬ KeepsReturn parser line) :
    (nextLine parser).processLine (stripReturn line) = .ok next := by
  rcases stripReturn_twice line with same | ⟨text, rfl⟩
  · rw [← same]
    exact processed
  · rw [stripReturn_two, stripReturn_return] at processed
    rw [stripReturn_two]
    exact processLine_return processed free

theorem run_agrees {lines : List (List Char)}
    (ran : processLines parser (lines.map (fun line => stripReturn (stripReturn line))) = .ok next)
    (agree : ReturnsAgree parser lines) :
    processLines parser (lines.map stripReturn) = .ok next := by
  induction lines generalizing parser with
  | nil => exact ran
  | cons line lines ih =>
    obtain ⟨middle, first, rest⟩ := bind_ok ran
    rw [map_cons, processLines, returns_alike first agree.1]
    exact ih rest (agree.2 middle first)

theorem run_diverges {lines : List (List Char)} {one two : StreamingPatchParser} {after : List Hunk}
    (whole : processLines parser (lines.map (fun line => stripReturn (stripReturn line))) = .ok one)
    (streamed : processLines parser (lines.map stripReturn) = .ok two)
    (first : HunksGrow one.hunks after) (second : HunksGrow two.hunks after) :
    ReturnsAgree parser lines := by
  induction lines generalizing parser with
  | nil => trivial
  | cons line lines ih =>
    obtain ⟨left, leftLine, leftRest⟩ := bind_ok whole
    obtain ⟨right, rightLine, rightRest⟩ := bind_ok streamed
    have free : ¬ KeepsReturn parser line := by
      intro keeps
      obtain ⟨text, rfl, starts⟩ := keeps
      dsimp only at leftLine
      rw [stripReturn_two, stripReturn_return] at leftLine
      rw [stripReturn_two] at rightLine
      have keeps : KeepsReturn (nextLine parser) (text ++ ['\r', '\r']) := ⟨text, rfl, starts⟩
      exact processLine_diverges keeps leftLine rightLine
        ((processLines_effect leftRest).2.trans first)
        ((processLines_effect rightRest).2.trans second)
    have same := returns_alike leftLine free
    cases same.symm.trans rightLine
    refine ⟨free, fun next processed => ?_⟩
    cases leftLine.symm.trans processed
    exact ih leftRest rightRest

def started : StreamingPatchParser := ⟨[], .startedPatch, [], none, 1⟩

theorem stripReturn_split (line : List Char) :
    ∃ space, line = stripReturn line ++ space ∧ Blank space := by
  unfold stripReturn
  split
  · rename_i last
    exact ⟨['\r'], last_split last, blank_return⟩
  · exact ⟨[], (append_nil line).symm, nofun⟩

theorem trim_stripReturn (line : List Char) : trim (stripReturn line) = trim line := by
  obtain ⟨space, split, blank⟩ := stripReturn_split line
  rw [← trim_append_blank _ _ blank, ← split]

theorem trimEnd_stripReturn (line : List Char) : trimEnd (stripReturn line) = trimEnd line := by
  obtain ⟨space, split, blank⟩ := stripReturn_split line
  rw [← trimEnd_append_blank _ blank, ← split]

theorem stripReturn_front (line : List Char) : stripReturn line <+: line := by
  obtain ⟨space, split, -⟩ := stripReturn_split line
  exact ⟨space, split.symm⟩

theorem first_line (marker : trim line = beginPatchMarker) :
    (nextLine .default).processLine line = .ok started := by
  simp [processLine, nextLine, StreamingPatchParser.default, marker, started]

theorem strict_lines {parts checked : List (List Char)}
    (strict : checkPatchBoundariesStrict parts = .ok checked) :
    checked = parts ∧ ∃ first last, parts.head? = some first ∧ parts.getLast? = some last ∧
      trim first = beginPatchMarker ∧ trim last = endPatchMarker := by
  obtain ⟨_, bounds, same⟩ := bind_ok strict
  cases same
  refine ⟨rfl, ?_⟩
  unfold checkStartAndEndLinesStrict at bounds
  cases first : parts.head? with
  | none => simp [first] at bounds
  | some front =>
    cases last : parts.getLast? with
    | none =>
      simp only [first, last, Option.map_some, Option.map_none] at bounds
      split at bounds <;> cases bounds
    | some back =>
      simp only [first, last, Option.map_some] at bounds
      split at bounds
      · split at bounds
        · exact ⟨front, back, rfl, rfl, by assumption, by assumption⟩
        · cases bounds
      · cases bounds

theorem unlines_end (line : List Char) (parts : List (List Char)) :
    ∃ front, unlines (line :: parts) [] = front ++ ['\n'] := by
  induction parts generalizing line with
  | nil => exact ⟨line, rfl⟩
  | cons next parts ih =>
    obtain ⟨front, same⟩ := ih next
    refine ⟨line ++ '\n' :: front, ?_⟩
    rw [unlines, same]
    simp

theorem last_nonempty {parts : List (List Char)}
    (cut : cutLines (trimEnd text) = (line :: parts, last)) : last ≠ [] := by
  rintro rfl
  obtain ⟨front, ends⟩ := unlines_end line parts
  have whole : trimEnd text = front ++ ['\n'] := by
    rw [← unlines_cutLines (trimEnd text), cut]
    exact ends
  have blank : Blank ['\n'] := by
    intro ch member
    rw [mem_singleton.mp member]
    decide
  have again := trimEnd_idem text
  rw [whole, trimEnd_append_blank front blank] at again
  have short := ( rdropWhile_prefix isWhitespace front).length_le
  have long := congrArg List.length again
  rw [length_append, trimEnd] at long
  simp only [length_singleton] at long
  omega

theorem takeWhile_first (line rest : List Char) (plain : '\n' ∉ line) :
    (line ++ '\n' :: rest).takeWhile (fun ch => decide (ch ≠ '\n')) = line := by
  rw [takeWhile_append_of_pos]
  · simp
  · intro ch member
    simp only [decide_not, Bool.not_eq_eq_eq_not, Bool.not_true, decide_eq_false_iff_not]
    rintro rfl
    exact plain member

theorem plain_trimStart (plain : ∀ part ∈ line :: middle, '\n' ∉ part) :
    ∀ part ∈ trimStart line :: middle, '\n' ∉ part := by
  obtain ⟨first, later⟩ := forall_mem_cons.mp plain
  exact forall_mem_cons.mpr
    ⟨fun inside => first ((dropWhile_suffix _).subset inside), later⟩

theorem trim_of_blank (blank : Blank text) : trim text = [] := by
  rw [trim, (trimStart_eq_nil text).mpr blank]
  rfl

theorem body_lines (strict : checkPatchBoundariesStrict (lines (trim text)) = .ok checked)
    (starts : trim (text.takeWhile (fun ch => decide (ch ≠ '\n'))) = beginPatchMarker) :
    ∃ first middle last, cutLines (trimEnd text) = (first :: middle, last) ∧
      trim first = beginPatchMarker ∧ trim last = endPatchMarker ∧
      lines (trim text) = (trimStart first :: middle).map stripReturn ++ [last] := by
  obtain ⟨space, whole, blank⟩ := trimEnd_split text
  have plain := cutLines_plain (trimEnd text)
  have joined := unlines_cutLines (trimEnd text)
  obtain ⟨-, front, back, head, tail, first, last⟩ := strict_lines strict
  cases cut : cutLines (trimEnd text) with
  | mk parts final =>
    rw [cut] at plain joined
    cases parts with
    | nil =>
      -- one line cannot be both markers
      have free : '\n' ∉ trim text := by
        rw [trim_eq, ← joined]
        exact fun member => plain.2 ((dropWhile_suffix _).subset member)
      have one : cutLines (trim text) = ([], trim text) := cutLines_unlines [] _ (by simp) free
      unfold lines at head tail
      rw [one] at head tail
      by_cases empty : trim text = []
      · simp [empty] at head
      · simp [empty] at head tail
        rw [← head] at first
        rw [← tail, first] at last
        exact absurd last (by decide)
    | cons line middle =>
      have lineMarker : trim line = beginPatchMarker := by
        have text_eq : text = line ++ '\n' :: (unlines middle final ++ space) := by
          rw [whole, ← joined]
          simp [unlines]
        rw [text_eq, takeWhile_first line _ (plain.1 line mem_cons_self)] at starts
        exact starts
      have solid : ¬ Blank line := by
        intro space
        rw [trim_of_blank space] at lineMarker
        cases lineMarker
      have trimmed : trim text = unlines (trimStart line :: middle) final := by
        rw [trim_eq, ← joined, unlines, trimStart_append _ _ solid]
        rfl
      have pieces : cutLines (trim text) = (trimStart line :: middle, final) := by
        rw [trimmed]
        exact cutLines_unlines _ _ (plain_trimStart plain.1) plain.2
      have listed : lines (trim text) = (trimStart line :: middle).map stripReturn ++ [final] := by
        unfold lines
        rw [pieces]
        simp [last_nonempty cut]
      have final_marker : trim final = endPatchMarker := by
        rw [listed, getLast?_concat] at tail
        cases tail
        exact last
      exact ⟨line, middle, final, rfl, lineMarker, final_marker, listed⟩

theorem appendCut_nil (cut : List (List Char) × List Char) : appendCut ([], []) cut = cut := by
  rcases cut with ⟨_ | _, _⟩ <;> rfl

theorem pushDelta_started (cut : cutLines text = (first :: middle, last))
    (marker : trim first = beginPatchMarker) :
    StreamingPatchParser.default.pushDelta text =
      (processLines started (middle.map stripReturn)).map
        (fun next => { next with lineBuffer := last }) := by
  have begun := first_line ((trim_stripReturn first).trans marker)
  have buffer : StreamingPatchParser.default.lineBuffer = [] := rfl
  rw [pushDelta_eq, buffer, appendCut_nil, cut, map_cons]
  change (((nextLine .default).processLine (stripReturn first)) >>= _).map _ = _
  rw [begun]
  rfl

theorem finish_marker (marker : trim parser.lineBuffer = endPatchMarker) :
    parser.finish = (nextLine { parser with lineBuffer := [] }).ensureUpdateHunkIsNotEmpty
        endPatchMarker >>= fun _ =>
      .ok { nextLine { parser with lineBuffer := [] } with mode := .endedPatch } := by
  have nonempty : parser.lineBuffer ≠ [] := by
    intro empty
    rw [empty] at marker
    cases marker
  unfold finish
  rw [if_neg nonempty]
  simp only [marker, nextLine]
  cases ensureUpdateHunkIsNotEmpty
      { parser with lineBuffer := [], lineNumber := parser.lineNumber + 1 } endPatchMarker <;> rfl

/-- What whole-text parsing computes for an accepted text: the lines of the body with all
their returns taken off, and the end marker. -/
structure Reading (text : List Char) (args : ApplyPatchArgs) (first : List Char)
    (middle : List (List Char)) (last : List Char) (parser : StreamingPatchParser) : Prop where
  cut : cutLines (trimEnd text) = (first :: middle, last)
  firstMarker : trim first = beginPatchMarker
  lastMarker : trim last = endPatchMarker
  ran : processLines started (middle.map (fun line => stripReturn (stripReturn line))) = .ok parser
  ensured : (nextLine parser).ensureUpdateHunkIsNotEmpty endPatchMarker = .ok ()
  hunks : args.hunks = parser.hunks
  environmentId : args.environmentId = parser.environmentId

theorem parsePatch_reading (parsed : parsePatch text = .ok args)
    (strict : checkPatchBoundariesStrict (lines (trim text)) = .ok checked)
    (starts : trim (text.takeWhile (fun ch => decide (ch ≠ '\n'))) = beginPatchMarker) :
    ∃ first middle last parser, Reading text args first middle last parser := by
  obtain ⟨first, middle, last, cut, firstMarker, lastMarker, listed⟩ := body_lines strict starts
  obtain ⟨rfl, -⟩ := strict_lines strict
  have lenient : checkPatchBoundariesLenient (lines (trim text)) = .ok (lines (trim text)) := by
    unfold checkPatchBoundariesLenient
    rw [strict]
  unfold parsePatch at parsed
  rw [lenient] at parsed
  obtain ⟨_, same, parsed⟩ := bind_ok parsed
  cases same
  obtain ⟨pushed, push, rest⟩ := bind_ok parsed
  obtain ⟨finished, finish, done⟩ := bind_ok rest
  cases done
  have plain := cutLines_plain (trimEnd text)
  rw [cut] at plain
  have joined : cutLines (joinLines (lines (trim text))) =
      ((trimStart first :: middle).map stripReturn, last) := by
    rw [listed, joinLines_concat]
    refine cutLines_unlines _ _ ?_ plain.2
    intro part member
    obtain ⟨line, source, rfl⟩ := mem_map.mp member
    exact fun inside => plain_trimStart plain.1 line source
      ((stripReturn_front line).subset inside)
  have front : trim (stripReturn (trimStart first)) = beginPatchMarker := by
    have again : trimStart (trimStart first) = trimStart first := dropWhile_idempotent ..
    rw [trim_stripReturn, trim, again]
    exact firstMarker
  rw [pushDelta_started joined front, map_map] at push
  obtain ⟨parser, ran, rfl⟩ := map_ok push
  have buffer : parser.lineBuffer = [] := (processLines_effect ran).1
  rw [finish_marker lastMarker] at finish
  obtain ⟨_, ensured, closed⟩ := bind_ok finish
  cases closed
  have rebuilt : ({ parser with lineBuffer := [] } : StreamingPatchParser) = parser := by
    rw [← buffer]
  exact ⟨first, middle, last, parser, cut, firstMarker, lastMarker, ran, ensured, rfl, rfl⟩

def streamDeltas (parser : StreamingPatchParser) :
    List (List Char) → Except ParseError (List Nat × StreamingPatchParser)
  | [] => .ok ([], parser)
  | delta :: deltas => do
      let next ← parser.pushDelta delta
      let rest ← streamDeltas next deltas
      return (next.hunks.length :: rest.1, rest.2)

theorem pushDelta_append (left right : List Char) (parser : StreamingPatchParser) :
    parser.pushDelta (left ++ right) =
      (parser.pushDelta left >>= fun next => next.pushDelta right) := by
  unfold pushDelta
  rw [foldlM_append]

theorem streamDeltas_flatten (deltas : List (List Char)) (parser : StreamingPatchParser) :
    (streamDeltas parser deltas).map Prod.snd = parser.pushDelta deltas.flatten := by
  induction deltas generalizing parser with
  | nil => rfl
  | cons delta deltas ih =>
    rw [flatten_cons, pushDelta_append, streamDeltas]
    cases parser.pushDelta delta with
    | error reason => rfl
    | ok next =>
      change Except.map Prod.snd (streamDeltas next deltas >>= _) = next.pushDelta deltas.flatten
      rw [← ih next]
      cases streamDeltas next deltas <;> rfl

theorem pushDelta_grows (pushed : parser.pushDelta text = .ok next) :
    HunksGrow parser.hunks next.hunks := by
  rw [pushDelta_eq] at pushed
  obtain ⟨middle, ran, rfl⟩ := map_ok pushed
  exact (processLines_effect ran).2

theorem streamDeltas_counts {deltas : List (List Char)} {counts : List Nat}
    {last : StreamingPatchParser} (streamed : streamDeltas parser deltas = .ok (counts, last)) :
    (parser.hunks.length :: counts).Pairwise (· ≤ ·) := by
  induction deltas generalizing parser counts with
  | nil =>
    cases streamed
    simp
  | cons delta deltas ih =>
    obtain ⟨next, pushed, tail⟩ := bind_ok streamed
    obtain ⟨rest, later, done⟩ := bind_ok tail
    cases done
    have growing := ih later
    have grown := (pushDelta_grows pushed).length_le
    refine List.Pairwise.cons ?_ growing
    intro count member
    rcases mem_cons.mp member with rfl | behind
    · exact grown
    · exact grown.trans (rel_of_pairwise_cons growing behind)

def EndsPlainly (parser : StreamingPatchParser) (line : List Char) : Prop :=
  parser.mode ≠ .endedPatch ∧ ∀ number, parser.mode = .updateFile number → trimStart line = line

/-- When streaming reads a text as whole-text parsing does: no recorded line ends in two
returns, and where a line feed follows the end marker the patch has not ended before and
the marker of an update hunk stands at the start of its line. -/
def StreamsAlike (text : List Char) : Prop :=
  ReturnsAgree started (cutLines (trimEnd text)).1.tail ∧ ('\n' ∈ text.drop (trimEnd text).length →
      ∀ parser, processLines started ((cutLines (trimEnd text)).1.tail.map
          (fun line => stripReturn (stripReturn line))) = .ok parser →
        EndsPlainly parser (cutLines (trimEnd text)).2)

theorem ended_blank_lines (lines : List (List Char)) (parser : StreamingPatchParser)
    (ended : parser.mode = .endedPatch) (blank : ∀ line ∈ lines, Blank line) :
    ∃ next, processLines parser lines = .ok next ∧ next.mode = .endedPatch ∧
      next.hunks = parser.hunks ∧ next.environmentId = parser.environmentId ∧
      next.lineBuffer = parser.lineBuffer := by
  induction lines generalizing parser with
  | nil => exact ⟨parser, rfl, ended, rfl, rfl, rfl⟩
  | cons line lines ih =>
    have empty := trim_of_blank (blank line mem_cons_self)
    have step : (nextLine parser).processLine line = .ok (nextLine parser) := by
      simp [processLine, nextLine, ended, empty]
    obtain ⟨next, ran, rest⟩ := ih (nextLine parser) ended
      (fun other member => blank other (mem_cons_of_mem _ member))
    refine ⟨next, ?_, rest⟩
    rw [processLines, step]
    exact ran

theorem update_stays (mode : parser.mode = .updateFile number) (other : line.head? ≠ some '*')
    (processed : parser.processLine line = .ok next) : next.mode = .updateFile number := by
  obtain ⟨_, _, _, _, _, _, rfl⟩ := processLine_update mode other processed
  exact mode

theorem blank_head (blank : Blank text) : text.head? ≠ some '*' := by
  intro starts
  have space := blank '*' (mem_of_mem_head? starts)
  exact absurd space (by decide)

theorem update_stays_blank {lines : List (List Char)} (mode : parser.mode = .updateFile number)
    (blank : ∀ line ∈ lines, Blank line) (ran : processLines parser lines = .ok next) :
    next.mode = .updateFile number := by
  induction lines generalizing parser with
  | nil =>
    cases ran
    exact mode
  | cons line lines ih =>
    obtain ⟨middle, first, rest⟩ := bind_ok ran
    have going : (nextLine parser).mode = .updateFile number := mode
    have kept := update_stays going (blank_head (blank line mem_cons_self)) first
    exact ih kept (fun other member => blank other (mem_cons_of_mem _ member)) rest

theorem finish_cases (finished : parser.finish = .ok next) :
    next.hunks = parser.hunks ∨
      (nextLine { parser with lineBuffer := [] }).processLine parser.lineBuffer = .ok next := by
  have closes {middle : StreamingPatchParser}
      (closed : (if middle.mode = .endedPatch then pure middle else .error lastLineError) =
        (.ok next : Except ParseError StreamingPatchParser)) : next = middle := by
    split at closed
    · cases closed
      rfl
    · cases closed
  unfold finish at finished
  by_cases empty : parser.lineBuffer = []
  · rw [if_pos empty] at finished
    rw [closes finished]
    exact .inl rfl
  · rw [if_neg empty] at finished
    by_cases marker : trim parser.lineBuffer = endPatchMarker
    · simp only [if_pos marker] at finished
      obtain ⟨_, -, closed⟩ := bind_ok finished
      cases closed
      exact .inl rfl
    · simp only [if_neg marker] at finished
      obtain ⟨middle, taken, closed⟩ := bind_ok finished
      rw [closes closed]
      exact .inr taken

theorem finish_grows (parser : StreamingPatchParser) (finished : parser.finish = .ok next) :
    HunksGrow parser.hunks next.hunks := by
  rcases finish_cases finished with same | taken
  · rw [same]
    exact GrowsBy.refl _
  · exact (processLine_effect taken).hunks

theorem finish_blank (parser : StreamingPatchParser) (blank : Blank parser.lineBuffer) :
    (parser.mode = .endedPatch → ∃ next, parser.finish = .ok next ∧ next.hunks = parser.hunks ∧
        next.environmentId = parser.environmentId) ∧
      (∀ number, parser.mode = .updateFile number → ∀ next, parser.finish ≠ .ok next) := by
  have marker := trim_of_blank blank
  have differs : trim parser.lineBuffer ≠ endPatchMarker := by
    rw [marker]
    decide
  unfold finish
  by_cases empty : parser.lineBuffer = []
  · rw [if_pos empty]
    constructor
    · intro ended
      exact ⟨parser, by simp [ended, pure, bind, Except.pure, Except.bind], rfl, rfl⟩
    · intro number mode next done
      simp [mode, pure, bind, Except.pure, Except.bind] at done
  · rw [if_neg empty]
    simp only [if_neg differs]
    constructor
    · intro ended
      simp [processLine, ended, marker, pure, bind, Except.pure, Except.bind]
    · intro number mode next done
      obtain ⟨middle, processed, closed⟩ := bind_ok done
      have kept : middle.mode = .updateFile number := by
        refine update_stays ?_ (blank_head blank) processed
        exact mode
      simp [kept] at closed

theorem cutLines_blank (blank : Blank text) :
    (∀ line ∈ (cutLines text).1, Blank line) ∧ Blank (cutLines text).2 := by
  have parts (lines : List (List Char)) (last : List Char) (whole : Blank (unlines lines last)) :
      (∀ line ∈ lines, Blank line) ∧ Blank last := by
    induction lines with
    | nil => exact ⟨by simp, whole⟩
    | cons line lines ih =>
      obtain ⟨front, rest⟩ := (blank_append _ _).mp whole
      obtain ⟨later, endsThere⟩ := ih (fun ch member => rest ch (mem_cons_of_mem _ member))
      exact ⟨forall_mem_cons.mpr ⟨front, later⟩, endsThere⟩
  exact parts _ _ (by rw [unlines_cutLines]; exact blank)

section

variable (ensured : parser.ensureUpdateHunkIsNotEmpty endPatchMarker = .ok ())
include ensured

theorem handle_end :
    parser.handleHunkHeadersAndEndPatch endPatchMarker =
      .ok (some { parser with mode := .endedPatch }) := by
  have other : stripPrefix environmentIdMarker endPatchMarker = none := by decide
  unfold handleHunkHeadersAndEndPatch
  simp [other, ensured, bind, Except.bind, pure, Except.pure]

theorem end_line (marker : trim last = endPatchMarker) (blank : Blank space)
    (begun : parser.mode ≠ .notStarted) :
    (EndsPlainly parser last → parser.processLine (stripReturn (last ++ space)) =
          .ok { parser with mode := .endedPatch }) ∧
      (¬ EndsPlainly parser last → ∀ next,
        parser.processLine (stripReturn (last ++ space)) = .ok next →
          ∃ number, next.mode = .updateFile number) := by
  have trimmed : trim (stripReturn (last ++ space)) = endPatchMarker := by
    rw [trim_stripReturn, trim_append_blank last space blank, marker]
  have trimmedEnd : trimEnd (stripReturn (last ++ space)) = trimEnd last := by
    rw [trimEnd_stripReturn, trimEnd_append_blank last blank]
  constructor
  · rintro ⟨going, flush⟩
    refine processLine_header begun going ?_
    have header : headerText parser (stripReturn (last ++ space)) = endPatchMarker := by
      unfold headerText
      split
      · rename_i number mode
        rw [trimmedEnd]
        rw [trim, flush number mode] at marker
        exact marker
      · exact trimmed
    rw [header]
    exact handle_end ensured
  · intro unplain next processed
    rw [EndsPlainly, not_and_or, not_not] at unplain
    rcases unplain with ended | indented
    · rcases processLine_cases processed with ⟨wrong, -⟩ | ⟨-, going, -⟩ | ⟨wrong, -⟩ |
        ⟨_, wrong, -⟩ | ⟨-, empty, -⟩
      · cases ended.symm.trans wrong
      · exact absurd ended going
      · cases ended.symm.trans wrong
      · cases ended.symm.trans wrong
      · rw [trimmed] at empty
        cases empty
    · push Not at indented
      obtain ⟨number, mode, moved⟩ := indented
      refine ⟨number, update_stays mode ?_ processed⟩
      -- an indented marker starts with white space, not with an asterisk
      intro star
      apply moved
      cases last with
      | nil => cases marker
      | cons head rest =>
        obtain ⟨taken, split, -⟩ := stripReturn_split (head :: rest ++ space)
        have first := congrArg head? split
        rw [head?_append, head?_append, star] at first
        cases first
        rfl

end

def StreamsTo (text : List Char) (args : ApplyPatchArgs) : Prop :=
  ∃ pushed final, StreamingPatchParser.default.pushDelta text = .ok pushed ∧
    pushed.finish = .ok final ∧ final.hunks = args.hunks ∧
    final.environmentId = args.environmentId

section

variable (reading : Reading text args first middle last parser)
include reading

theorem Reading.lineBuffer (rest : List Char) :
    ({ ({ parser with lineBuffer := rest } : StreamingPatchParser) with lineBuffer := [] } :
      StreamingPatchParser) = parser := by
  have buffer : parser.lineBuffer = [] := (processLines_effect reading.ran).1
  rw [← buffer]

theorem Reading.agree_of_grown {streamed : StreamingPatchParser} {final : List Hunk}
    (run : processLines started (middle.map stripReturn) = .ok streamed)
    (grown : HunksGrow streamed.hunks final) (same : final = args.hunks) :
    ReturnsAgree started middle ∧ streamed = parser := by
  have agree : ReturnsAgree started middle := by
    refine run_diverges reading.ran run ?_ grown
    rw [same, reading.hunks]
    exact GrowsBy.refl _
  have again := run_agrees reading.ran agree
  cases run.symm.trans again
  exact ⟨agree, rfl⟩

theorem stream_unterminated (cut : cutLines text = (first :: middle, last ++ space))
    (blank : Blank space) : StreamsTo text args ↔ ReturnsAgree started middle := by
  have pushes := pushDelta_started cut reading.firstMarker
  have marker : trim (last ++ space) = endPatchMarker := by
    rw [trim_append_blank last space blank, reading.lastMarker]
  constructor
  · rintro ⟨pushed, final, push, finish, same, -⟩
    rw [pushes] at push
    obtain ⟨streamed, run, rfl⟩ := map_ok push
    rw [finish_marker marker] at finish
    obtain ⟨_, -, closed⟩ := bind_ok finish
    cases closed
    exact (reading.agree_of_grown run (GrowsBy.refl _) same).1
  · intro agree
    rw [run_agrees reading.ran agree] at pushes
    refine ⟨_, { nextLine parser with mode := .endedPatch }, pushes, ?_, reading.hunks.symm,
      reading.environmentId.symm⟩
    rw [finish_marker marker, reading.lineBuffer, reading.ensured]
    rfl

theorem stream_terminated {tail : List Char} {rest : List (List Char)}
    (cut : cutLines text = (first :: (middle ++ (last ++ space) :: rest), tail))
    (blank : Blank space) (blankRest : ∀ line ∈ rest, Blank line) (blankTail : Blank tail) :
    StreamsTo text args ↔ ReturnsAgree started middle ∧ EndsPlainly parser last := by
  have pushes := pushDelta_started cut reading.firstMarker
  rw [map_append, map_cons, processLines_append] at pushes
  have stripped : ∀ line ∈ rest.map stripReturn, Blank line := by
    intro line member
    obtain ⟨source, inside, rfl⟩ := mem_map.mp member
    exact fun ch own => blankRest source inside ch ((stripReturn_front source).subset own)
  have begun : (nextLine parser).mode ≠ .notStarted :=
    processLines_begun _ started parser (by decide) reading.ran
  obtain ⟨plain, indented⟩ := end_line reading.ensured reading.lastMarker blank begun
  constructor
  · rintro ⟨pushed, final, push, finish, same, -⟩
    rw [pushes] at push
    obtain ⟨closed, ran, rfl⟩ := map_ok push
    obtain ⟨streamed, run, closing⟩ := bind_ok ran
    have closingGrown : HunksGrow closed.hunks final.hunks :=
      finish_grows { closed with lineBuffer := tail } finish
    have grown := (processLines_effect closing).2.trans closingGrown
    obtain ⟨agree, rfl⟩ := reading.agree_of_grown run grown same
    refine ⟨agree, ?_⟩
    by_contra unplain
    obtain ⟨ended, line, later⟩ := bind_ok closing
    obtain ⟨number, mode⟩ := indented unplain ended line
    have kept := update_stays_blank mode stripped later
    exact (finish_blank { closed with lineBuffer := tail } blankTail).2 number kept final finish
  · rintro ⟨agree, plainly⟩
    rw [run_agrees reading.ran agree] at pushes
    obtain ⟨next, ran, mode, hunks, environmentId, -⟩ := ended_blank_lines (rest.map stripReturn)
      { nextLine parser with mode := .endedPatch } rfl stripped
    have closing : processLines parser (stripReturn (last ++ space) :: rest.map stripReturn) =
        .ok next := by
      rw [processLines, plain plainly]
      exact ran
    have push : StreamingPatchParser.default.pushDelta text =
        .ok { next with lineBuffer := tail } := by
      rw [pushes]
      change Except.map _ (processLines parser _) = _
      rw [closing]
      rfl
    obtain ⟨final, finish, finalHunks, finalId⟩ :=
      (finish_blank { next with lineBuffer := tail } blankTail).1 mode
    exact ⟨_, final, push, finish, finalHunks.trans (hunks.trans reading.hunks.symm),
      finalId.trans (environmentId.trans reading.environmentId.symm)⟩

end

theorem newline_cut (space : List Char) : '\n' ∈ space ↔ (cutLines space).1 ≠ [] := by
  have same := unlines_cutLines space
  have plain := (cutLines_plain space).2
  cases cut : cutLines space with
  | mk front last =>
    rw [cut] at same plain
    cases front with
    | nil =>
      rw [← same]
      simpa [unlines] using plain
    | cons line front =>
      rw [← same]
      simp [unlines]

theorem stream_iff (reading : Reading text args first middle last parser) :
    StreamsTo text args ↔ StreamsAlike text := by
  obtain ⟨space, whole, blank⟩ := trimEnd_split text
  have dropped : text.drop (trimEnd text).length = space := by
    conv_lhs => rw [whole]
    have same : trimEnd (trimEnd text ++ space) = trimEnd text := by rw [← whole]
    rw [same, drop_left]
  have pieces : cutLines text = appendCut (first :: middle, last) (cutLines space) := by
    conv_lhs => rw [whole]
    rw [cutLines_append, reading.cut]
  have newline := newline_cut space
  obtain ⟨blankLines, blankLast⟩ := cutLines_blank blank
  unfold StreamsAlike
  rw [reading.cut, dropped]
  cases spaceCut : cutLines space with
  | mk spaceLines spaceLast =>
    rw [spaceCut] at pieces newline blankLines blankLast
    cases spaceLines with
    | nil =>
      rw [stream_unterminated reading pieces blankLast]
      simp [newline]
    | cons spaceFirst spaceRest =>
      obtain ⟨blankFirst, blankRest⟩ := forall_mem_cons.mp blankLines
      rw [stream_terminated reading pieces blankFirst blankRest blankLast]
      constructor
      · rintro ⟨agree, plainly⟩
        refine ⟨agree, fun _ other ran => ?_⟩
        cases reading.ran.symm.trans ran
        exact plainly
      · rintro ⟨agree, plainly⟩
        exact ⟨agree, plainly (newline.mpr (by simp)) parser reading.ran⟩

/-- Feeding the deltas of a text accepted without heredoc unwrapping, then finishing, gives
what whole-text parsing gives exactly when no recorded line loses a second return and the
end marker is where the line machine takes it. The split into deltas plays no part. -/
theorem streaming_agrees_iff (deltas : List (List Char)) (args : ApplyPatchArgs)
    (checked : List (List Char)) (parsed : parsePatch deltas.flatten = .ok args)
    (strict : checkPatchBoundariesStrict (lines (trim deltas.flatten)) = .ok checked)
    (starts : trim (deltas.flatten.takeWhile (fun ch => decide (ch ≠ '\n'))) = beginPatchMarker) :
    (∃ counts parser final, streamDeltas .default deltas = .ok (counts, parser) ∧
        parser.finish = .ok final ∧ final.hunks = args.hunks ∧
        final.environmentId = args.environmentId ∧ counts.Pairwise (· ≤ ·)) ↔
      StreamsAlike deltas.flatten := by
  obtain ⟨first, middle, last, parser, reading⟩ := parsePatch_reading parsed strict starts
  rw [← stream_iff reading, StreamsTo, ← streamDeltas_flatten]
  constructor
  · rintro ⟨counts, parser, final, streamed, finish, hunks, environmentId, -⟩
    exact ⟨parser, final, by rw [streamed]; rfl, finish, hunks, environmentId⟩
  · rintro ⟨pushed, final, mapped, finish, hunks, environmentId⟩
    obtain ⟨result, streamed, rfl⟩ := map_ok mapped
    have counts := streamDeltas_counts streamed
    exact ⟨result.1, result.2, final, streamed, finish, hunks, environmentId, counts.of_cons⟩

def crlfDeltas : List (List Char) :=
  ["*** Begin Patch\r\n*** Add File: a\r".toList, "\n+x\r\n*** End Patch".toList]

theorem crlf_streams_alike : StreamsAlike crlfDeltas.flatten := (streaming_agrees_iff crlfDeltas
    ⟨[.addFile "a".toList "x\n".toList],
      "*** Begin Patch\n*** Add File: a\n+x\n*** End Patch".toList, none⟩ _
    (by decide +kernel) rfl (by decide +kernel)).mp ⟨[0, 1], _, _, rfl, rfl, rfl, rfl, by decide⟩

def doubledReturn : List Char :=
  "*** Begin Patch\n*** Add File: a\n+x\r\r\n*** End Patch".toList

/-- A second return at the end of an added line is kept by streaming only. -/
theorem doubled_return_streams_apart :
    (parsePatch doubledReturn).map ApplyPatchArgs.hunks = .ok [.addFile "a".toList "x\n".toList] ∧
      (checkPatchBoundariesStrict (lines (trim doubledReturn))).isOk = true ∧
      doubledReturn.takeWhile (fun ch => decide (ch ≠ '\n')) = beginPatchMarker ∧
      (streamDeltas .default [doubledReturn] >>= fun streamed => streamed.2.finish).map
        StreamingPatchParser.hunks = .ok [.addFile "a".toList "x\r\n".toList] := by
  decide +kernel

end OpenInterpreter.PatchStreaming
