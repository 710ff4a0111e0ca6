import OpenInterpreter.PatchStreaming

/-! Patches in the grammar that `parser.rs` documents: how one is written, what it says, and that
`parse_patch` reads back what was written. -/

namespace OpenInterpreter.PatchText

open Text PatchParser PatchStreaming StreamingPatchParser
open List hiding modifyLast

/-! ### Patches -/

inductive TaggedLine where
  | context (text : List Char)
  | added (text : List Char)
  | removed (text : List Char)
  deriving DecidableEq

def TaggedLine.text : TaggedLine → List Char
  | .context text | .added text | .removed text => text

inductive ChunkHeader where
  | bare
  | plain
  | named (context : List Char)
  deriving DecidableEq

structure ChunkText where
  header : ChunkHeader
  lines : List TaggedLine
  endOfFile : Bool
  deriving DecidableEq

inductive HunkText where
  | addFile (path : PatchPath) (lines : List (List Char))
  | deleteFile (path : PatchPath)
  | updateFile (path : PatchPath) (movePath : Option PatchPath) (chunks : List ChunkText)
  deriving DecidableEq

structure Patch where
  environmentId : Option (List Char)
  hunks : List HunkText
  deriving DecidableEq

/-! ### How they are written -/

def TaggedLine.render : TaggedLine → List Char
  | .context text => ' ' :: text
  | .added text => '+' :: text
  | .removed text => '-' :: text

def ChunkHeader.render : ChunkHeader → List (List Char)
  | .bare => []
  | .plain => [emptyChangeContextMarker]
  | .named context => [changeContextMarker ++ context]

def ChunkText.render (chunk : ChunkText) : List (List Char) :=
  chunk.header.render ++ chunk.lines.map TaggedLine.render ++
    if chunk.endOfFile then [eofMarker] else []

def HunkText.render : HunkText → List (List Char)
  | .addFile path lines => (addFileMarker ++ path) :: lines.map ('+' :: ·)
  | .deleteFile path => [deleteFileMarker ++ path]
  | .updateFile path movePath chunks =>
    (updateFileMarker ++ path) :: (movePath.toList.map (moveToMarker ++ ·) ++
      chunks.flatMap ChunkText.render)

def Patch.body (patch : Patch) : List (List Char) :=
  patch.environmentId.toList.map (environmentIdMarker ++ ' ' :: ·) ++
    patch.hunks.flatMap HunkText.render

def Patch.render (patch : Patch) : List Char :=
  joinLines (beginPatchMarker :: (patch.body ++ [endPatchMarker]))

/-! ### What they say -/

def TaggedLine.old? : TaggedLine → Option (List Char)
  | .context text | .removed text => some text
  | .added _ => none

def TaggedLine.new? : TaggedLine → Option (List Char)
  | .context text | .added text => some text
  | .removed _ => none

def contextIndices (old new : Nat) : List TaggedLine → List (Nat × Nat)
  | [] => []
  | .context _ :: rest => (old, new) :: contextIndices (old + 1) (new + 1) rest
  | .added _ :: rest => contextIndices old (new + 1) rest
  | .removed _ :: rest => contextIndices (old + 1) new rest

def ChunkHeader.changeContext : ChunkHeader → Option (List Char)
  | .bare | .plain => none
  | .named context => some context

def chunkOf (header : ChunkHeader) (lines : List TaggedLine) : UpdateFileChunk where
  changeContext := header.changeContext
  oldLines := lines.filterMap TaggedLine.old?
  newLines := lines.filterMap TaggedLine.new?
  contextLineIndices := contextIndices 0 0 lines
  isEndOfFile := false

def ChunkText.chunk (chunk : ChunkText) : UpdateFileChunk :=
  { chunkOf chunk.header chunk.lines with isEndOfFile := chunk.endOfFile }

def HunkText.hunk : HunkText → Hunk
  | .addFile path lines => .addFile path (lines.flatMap (· ++ ['\n']))
  | .deleteFile path => .deleteFile path
  | .updateFile path movePath chunks => .updateFile path movePath (chunks.map ChunkText.chunk)

/-! ### Well-formed patches -/

structure PathText (path : List Char) : Prop where
  nonempty : path ≠ []
  noReturn : '\r' ∉ path
  noNewline : '\n' ∉ path
  trimmed : trim path = path

structure LineText (text : List Char) : Prop where
  noNewline : '\n' ∉ text
  noReturn : text.getLast? ≠ some '\r'

structure ContextText (context : List Char) : Prop where
  nonempty : context ≠ []
  noNewline : '\n' ∉ context
  trimmed : trimEnd context = context

structure EnvironmentText (environmentId : List Char) : Prop where
  nonempty : environmentId ≠ []
  noNewline : '\n' ∉ environmentId
  trimmed : trim environmentId = environmentId

structure ChunkText.WellFormed (chunk : ChunkText) : Prop where
  header : ∀ context, chunk.header = .named context → ContextText context
  nonempty : chunk.lines ≠ []
  lines : ∀ line ∈ chunk.lines, LineText line.text

inductive HunkText.WellFormed : HunkText → Prop where
  | addFile {path : PatchPath} {lines : List (List Char)} (pathText : PathText path)
      (texts : ∀ line ∈ lines, LineText line) : WellFormed (.addFile path lines)
  | deleteFile {path : PatchPath} (pathText : PathText path) : WellFormed (.deleteFile path)
  | updateFile {path : PatchPath} {movePath : Option PatchPath} {first : ChunkText}
      {rest : List ChunkText} (pathText : PathText path) (moveText : ∀ path ∈ movePath, PathText path)
      (chunks : ∀ chunk ∈ first :: rest, chunk.WellFormed)
      (headed : ∀ chunk ∈ rest, chunk.header ≠ .bare) :
      WellFormed (.updateFile path movePath (first :: rest))

structure Patch.WellFormed (patch : Patch) : Prop where
  environmentId : ∀ id ∈ patch.environmentId, EnvironmentText id
  hunks : ∀ hunk ∈ patch.hunks, hunk.WellFormed

/-! ### Texts behind a marker -/

theorem trimStart_cons {ch : Char} (solid : isWhitespace ch = false) (rest : List Char) :
    trimStart (ch :: rest) = ch :: rest := by
  simp [trimStart, solid]

variable {text : List Char}

theorem not_blank_of_ne (nonempty : text ≠ []) (trimmed : trimEnd text = text) : ¬ Blank text := by
  intro blank
  rw [(trimEnd_eq_nil text).mpr blank] at trimmed
  exact nonempty trimmed.symm

variable {marker path : List Char} {parser : StreamingPatchParser}

theorem trim_marker (starts : marker.head? = some '*') (nonempty : text ≠ [])
    (trimmed : trimEnd text = text) : trim (marker ++ text) = marker ++ text := by
  cases marker with
  | nil => cases starts
  | cons ch marker =>
    cases starts
    rw [trim, cons_append, trimStart_cons (by decide), ← cons_append,
      trimEnd_append_solid _ _ (not_blank_of_ne nonempty trimmed), trimmed]

theorem PathText.trimEnd_eq (pathText : PathText path) : trimEnd path = path := by
  have whole := pathText.trimmed
  rw [trim] at whole
  rw [← whole, trimEnd_idem]

theorem EnvironmentText.trimEnd_eq {id : List Char} (text : EnvironmentText id) :
    trimEnd id = id := by
  have whole := text.trimmed
  rw [trim] at whole
  rw [← whole, trimEnd_idem]

theorem trim_path (starts : marker.head? = some '*') (pathText : PathText path) :
    trim (marker ++ path) = marker ++ path :=
  trim_marker starts pathText.nonempty pathText.trimEnd_eq

theorem trimEnd_path (marker : List Char) (pathText : PathText path) :
    trimEnd (marker ++ path) = marker ++ path := by
  rw [trimEnd_append_solid _ _ (not_blank_of_ne pathText.nonempty pathText.trimEnd_eq),
    pathText.trimEnd_eq]

theorem stripPrefix_self (marker text : List Char) :
    stripPrefix marker (marker ++ text) = some text := by
  have starts : marker.isPrefixOf (marker ++ text) = true :=
    isPrefixOf_iff_prefix.mpr (prefix_append _ _)
  rw [stripPrefix, if_pos starts, drop_left]

/-! ### Headers -/

def Complete (hunks : List Hunk) : Prop :=
  ∀ path movePath chunks, hunks.getLast? = some (.updateFile path movePath chunks) →
    ∃ chunk, chunks.getLast? = some chunk ∧ chunk.isBlank = false

structure Ready (parser : StreamingPatchParser) (hunks : List Hunk)
    (environmentId : Option (List Char)) : Prop where
  read : parser.hunks = hunks
  environment : parser.environmentId = environmentId
  begun : parser.mode ≠ .notStarted
  going : parser.mode ≠ .endedPatch
  complete : Complete hunks

theorem ensure_ok (complete : Complete parser.hunks) (line : List Char) :
    parser.ensureUpdateHunkIsNotEmpty line = .ok () := by
  unfold ensureUpdateHunkIsNotEmpty
  cases last : parser.hunks.getLast? with
  | none => rfl
  | some hunk =>
    cases hunk with
    | updateFile path movePath chunks =>
      obtain ⟨chunk, found, solid⟩ := complete path movePath chunks last
      simp [found, solid]
    | _ => rfl

variable {next : StreamingPatchParser}

theorem processLine_trimmed {line : List Char} (begun : parser.mode ≠ .notStarted)
    (going : parser.mode ≠ .endedPatch) (trimmed : trim line = line)
    (handled : parser.handleHunkHeadersAndEndPatch line = .ok (some next)) :
    parser.processLine line = .ok next := by
  have ends : trimEnd line = line := by
    rw [trim] at trimmed
    rw [← trimmed, trimEnd_idem]
  cases mode : parser.mode with
  | notStarted => exact absurd mode begun
  | endedPatch => exact absurd mode going
  | _ =>
    simp [processLine, mode, trimmed, ends, handled, bind, Except.bind, pure, Except.pure]

theorem ne_endPatchMarker (other : marker.isPrefixOf endPatchMarker = false) (text : List Char) :
    marker ++ text ≠ endPatchMarker := by
  intro same
  have starts : marker.isPrefixOf endPatchMarker = true := by
    rw [← same, isPrefixOf_iff_prefix]
    exact prefix_append _ _
  rw [other] at starts
  cases starts

section

variable (complete : Complete parser.hunks)
include complete

theorem startHunk_ok (line : List Char) (hunk : Hunk) (mode : StreamingParserMode) :
    parser.startHunk line hunk mode =
      .ok (some { parser with hunks := parser.hunks ++ [hunk], mode := mode }) := by
  rw [startHunk, ensure_ok complete]
  rfl

variable (path : PatchPath)

theorem handle_addFile :
    parser.handleHunkHeadersAndEndPatch (addFileMarker ++ path) =
      .ok (some { parser with hunks := parser.hunks ++ [.addFile path []], mode := .addFile }) :=
  (handle_other parser rfl (ne_endPatchMarker rfl path)).trans (startHunk_ok complete ..)

theorem handle_deleteFile :
    parser.handleHunkHeadersAndEndPatch (deleteFileMarker ++ path) =
      .ok (some { parser with hunks := parser.hunks ++ [.deleteFile path], mode := .deleteFile }) :=
  (handle_other parser rfl (ne_endPatchMarker rfl path)).trans (startHunk_ok complete ..)

theorem handle_updateFile :
    parser.handleHunkHeadersAndEndPatch (updateFileMarker ++ path) = .ok (some { parser with
        hunks := parser.hunks ++ [.updateFile path none []]
        mode := .updateFile parser.lineNumber }) :=
  (handle_other parser rfl (ne_endPatchMarker rfl path)).trans (startHunk_ok complete ..)

end

def Reads (parser : StreamingPatchParser) (lines : List (List Char))
    (post : StreamingPatchParser → Prop) : Prop :=
  ∃ next, processLines parser lines = .ok next ∧ post next

section

variable {post middle : StreamingPatchParser → Prop}

theorem Reads.nothing (holds : post parser) : Reads parser [] post := ⟨parser, rfl, holds⟩

theorem Reads.append {left right : List (List Char)} (first : Reads parser left middle)
    (second : ∀ next, middle next → Reads next right post) : Reads parser (left ++ right) post := by
  obtain ⟨between, ran, held⟩ := first
  obtain ⟨next, rest, holds⟩ := second between held
  refine ⟨next, ?_, holds⟩
  rw [processLines_append, ran]
  exact rest

theorem Reads.single {line : List Char} (processed : (nextLine parser).processLine line = .ok next)
    (holds : post next) : Reads parser [line] post := by
  refine ⟨next, ?_, holds⟩
  rw [processLines, processed]
  rfl

end

/-! ### Files that are added or deleted -/

theorem processLine_added {front : List Hunk} {path : PatchPath} {contents : List Char}
    (mode : parser.mode = .addFile) (hunks : parser.hunks = front ++ [.addFile path contents])
    (text : List Char) :
    parser.processLine ('+' :: text) =
      .ok { parser with hunks := front ++ [.addFile path (contents ++ (text ++ ['\n']))] } := by
  have other : (trim ('+' :: text)).head? ≠ some '*' := by
    rw [trim, trimStart_cons (by decide)]
    exact trimEnd_head (by simp)
  have none := handle_none parser other
  simp [processLine, mode, none, hunks, bind, Except.bind, pure, Except.pure]

structure Adding (parser : StreamingPatchParser) (front : List Hunk) (path : PatchPath)
    (contents : List Char) (environmentId : Option (List Char)) : Prop where
  mode : parser.mode = .addFile
  hunks : parser.hunks = front ++ [.addFile path contents]
  environment : parser.environmentId = environmentId

variable {environmentId : Option (List Char)}

theorem Adding.lines {front : List Hunk} {path : PatchPath} (lines : List (List Char))
    {contents : List Char} (adding : Adding parser front path contents environmentId) :
    Reads parser (lines.map ('+' :: ·)) fun next =>
      Adding next front path (contents ++ lines.flatMap (· ++ ['\n'])) environmentId := by
  induction lines generalizing parser contents with
  | nil => exact Reads.nothing (by simpa using adding)
  | cons line lines ih =>
    have begun : (nextLine parser).mode = .addFile := adding.mode
    have read : (nextLine parser).hunks = front ++ [.addFile path contents] := adding.hunks
    have first : Reads parser ['+' :: line] fun next =>
        Adding next front path (contents ++ (line ++ ['\n'])) environmentId :=
      Reads.single (processLine_added begun read line) ⟨adding.mode, rfl, adding.environment⟩
    rw [flatMap_cons, ← append_assoc]
    exact first.append fun _ => ih

/-! ### Chunks of an update -/

open TaggedLine

theorem contextIndices_append (first second : List TaggedLine) (old new : Nat) :
    contextIndices old new (first ++ second) = contextIndices old new first ++
        contextIndices (old + (first.filterMap TaggedLine.old?).length)
          (new + (first.filterMap TaggedLine.new?).length) second := by
  induction first generalizing old new with
  | nil => rfl
  | cons line first ih =>
    cases line <;>
      simp [contextIndices, ih, old?, new?, filterMap_cons, Nat.add_assoc, Nat.add_comm 1]

theorem pushUpdateLine_chunkOf (header : ChunkHeader) (lines : List TaggedLine)
    (line : TaggedLine) :
    pushUpdateLine line.render (chunkOf header lines) = some (chunkOf header (lines ++ [line])) := by
  cases line with
  | context text =>
    simp [render, pushUpdateLine, UpdateFileChunk.pushContextLine, chunkOf,
      contextIndices_append, contextIndices, old?, new?]
  | added | removed =>
    simp [render, pushUpdateLine, chunkOf, contextIndices_append, contextIndices, old?, new?]

theorem isBlank_chunkOf (header : ChunkHeader) (lines : List TaggedLine) :
    (chunkOf header lines).isBlank = lines.isEmpty := by
  cases lines with
  | nil => rfl
  | cons line lines => cases line <;> simp [UpdateFileChunk.isBlank, chunkOf, old?, new?]

structure Updating (parser : StreamingPatchParser) (front : List Hunk) (path : PatchPath)
    (movePath : Option PatchPath) (chunks : List UpdateFileChunk)
    (environmentId : Option (List Char)) : Prop where
  mode : ∃ number, parser.mode = .updateFile number
  hunks : parser.hunks = front ++ [.updateFile path movePath chunks]
  environment : parser.environmentId = environmentId

variable {movePath : Option PatchPath}

section

variable {front : List Hunk} {path : PatchPath}
  {chunks : List UpdateFileChunk}

theorem Updating.line (updating : Updating parser front path movePath chunks environmentId)
    {line : List Char} {moved : Option PatchPath} {grown : List UpdateFileChunk}
    (other : ∀ parser : StreamingPatchParser,
      parser.handleHunkHeadersAndEndPatch (trimEnd line) = .ok none)
    (done : ∀ number, updateHunkLine number line movePath chunks = .ok (moved, grown)) :
    Reads parser [line] fun next => Updating next front path moved grown environmentId := by
  obtain ⟨number, mode⟩ := updating.mode
  have begun : (nextLine parser).mode = .updateFile number := mode
  have read : (nextLine parser).hunks = front ++ [.updateFile path movePath chunks] :=
    updating.hunks
  have none := other (nextLine parser)
  have processed : (nextLine parser).processLine line =
      .ok { nextLine parser with hunks := front ++ [.updateFile path moved grown] } := by
    simp [processLine, begun, none, read, done, bind, Except.bind, pure, Except.pure]
  exact Reads.single processed ⟨⟨number, mode⟩, rfl, updating.environment⟩

variable {number : Nat} {before : List UpdateFileChunk} {header : ChunkHeader}

theorem updateHunkLine_tagged (line : TaggedLine) {lines : List TaggedLine}
    (ensured : ensureChunk chunks = before ++ [chunkOf header lines])
    (going : chunks.getLast?.any UpdateFileChunk.isEndOfFile = false) :
    updateHunkLine number line.render movePath chunks =
      .ok (movePath, before ++ [chunkOf header (lines ++ [line])]) := by
  have head : line.render.head? ≠ some '*' ∧ line.render.head? ≠ some '@' := by
    cases line <;> simp [render]
  have star := trimEnd_head head.1
  have heading := trimEnd_head head.2
  have named := not_prefix_of_head changeContextMarker rfl heading
  have moved := not_prefix_of_head moveToMarker rfl star
  have plain : trimEnd line.render ≠ emptyChangeContextMarker := by
    intro same
    exact heading (same ▸ rfl)
  have inside : trimEnd line.render ≠ eofMarker := by
    intro same
    exact star (same ▸ rfl)
  have pushed := pushUpdateLine_chunkOf header lines line
  simp [updateHunkLine, going, isContextMarker, named, moved, plain, inside, ensured, pushed]

theorem Updating.tagged (updating : Updating parser front path movePath chunks environmentId)
    (line : TaggedLine) {lines : List TaggedLine}
    (ensured : ensureChunk chunks = before ++ [chunkOf header lines])
    (going : chunks.getLast?.any UpdateFileChunk.isEndOfFile = false) :
    Reads parser [line.render] fun next =>
      Updating next front path movePath (before ++ [chunkOf header (lines ++ [line])])
        environmentId := by
  have head : line.render.head? ≠ some '*' := by
    cases line <;> simp [render]
  refine updating.line (fun parser => handle_none parser (trimEnd_head head)) fun number => ?_
  exact updateHunkLine_tagged line ensured going

theorem Updating.lines (more : List TaggedLine) {lines : List TaggedLine}
    (updating : Updating parser front path movePath (before ++ [chunkOf header lines])
      environmentId) :
    Reads parser (more.map TaggedLine.render) fun next =>
      Updating next front path movePath (before ++ [chunkOf header (lines ++ more)])
        environmentId := by
  induction more generalizing parser lines with
  | nil => exact Reads.nothing (by simpa using updating)
  | cons line more ih =>
    have ensured : ensureChunk (before ++ [chunkOf header lines]) =
        before ++ [chunkOf header lines] := by
      simp [ensureChunk]
    rw [append_cons lines]
    exact (updating.tagged line ensured (by simp [chunkOf])).append fun _ => ih

theorem trimEnd_context {context : List Char} (text : ContextText context) :
    trimEnd (changeContextMarker ++ context) = changeContextMarker ++ context := by
  rw [trimEnd_append_solid _ _ (not_blank_of_ne text.nonempty text.trimmed), text.trimmed]

theorem trimEnd_plain : trimEnd emptyChangeContextMarker = emptyChangeContextMarker := by decide

section

variable (solid : chunks.getLast?.any UpdateFileChunk.isBlank = false)
include solid

theorem updateHunkLine_plain :
    updateHunkLine number emptyChangeContextMarker movePath chunks =
      .ok (movePath, chunks ++ [chunkOf .plain []]) := by
  have nonempty : emptyChangeContextMarker.isEmpty = false := rfl
  have marker : isContextMarker emptyChangeContextMarker = true := rfl
  have moves : moveToMarker.isPrefixOf emptyChangeContextMarker = false := rfl
  have same : chunkOf .plain [] = UpdateFileChunk.default := rfl
  simp [updateHunkLine, trimEnd_plain, nonempty, marker, moves, solid, same]

theorem updateHunkLine_named {context : List Char} (text : ContextText context) :
    updateHunkLine number (changeContextMarker ++ context) movePath chunks =
      .ok (movePath, chunks ++ [chunkOf (.named context) []]) := by
  have nonempty : (changeContextMarker ++ context).isEmpty = false := rfl
  have starts : changeContextMarker.isPrefixOf (changeContextMarker ++ context) = true :=
    isPrefixOf_iff_prefix.mpr (prefix_append _ _)
  have marker : isContextMarker (changeContextMarker ++ context) = true := by
    rw [isContextMarker, starts, Bool.or_true]
  have moves : moveToMarker.isPrefixOf (changeContextMarker ++ context) = false := rfl
  have longer : changeContextMarker ++ context ≠ emptyChangeContextMarker := by
    intro same
    have length := congrArg List.length same
    rw [length_append] at length
    have three : changeContextMarker.length = 3 := rfl
    have two : emptyChangeContextMarker.length = 2 := rfl
    omega
  have same : chunkOf (.named context) [] =
      { UpdateFileChunk.default with changeContext := some context } := rfl
  simp [updateHunkLine, trimEnd_context text, nonempty, marker, moves, solid, longer, same]

end

theorem Updating.headed (updating : Updating parser front path movePath chunks environmentId)
    {chunk : ChunkText} (wellFormed : chunk.WellFormed) (headed : chunk.header ≠ .bare)
    (solid : chunks.getLast?.any UpdateFileChunk.isBlank = false) :
    Reads parser chunk.header.render fun next =>
      Updating next front path movePath (chunks ++ [chunkOf chunk.header []]) environmentId := by
  cases header : chunk.header with
  | bare => exact absurd header headed
  | plain =>
    have other : (trimEnd emptyChangeContextMarker).head? ≠ some '*' := by
      decide
    exact updating.line (fun parser => handle_none parser other)
      (fun number => updateHunkLine_plain solid)
  | named context =>
    have text := wellFormed.header context header
    have other : (trimEnd (changeContextMarker ++ context)).head? ≠ some '*' := by
      rw [trimEnd_context text]
      simp [changeContextMarker]
    exact updating.line (fun parser => handle_none parser other)
      (fun number => updateHunkLine_named solid text)

theorem trimEnd_eofMarker : trimEnd eofMarker = eofMarker := by decide

theorem updateHunkLine_eof {chunk : UpdateFileChunk} (solid : chunk.isBlank = false)
    (going : chunk.isEndOfFile = false) :
    updateHunkLine number eofMarker movePath (before ++ [chunk]) =
      .ok (movePath, before ++ [{ chunk with isEndOfFile := true }]) := by
  have marker : isContextMarker eofMarker = false := rfl
  have plain : eofMarker ≠ emptyChangeContextMarker := by decide
  have starts : changeContextMarker.isPrefixOf eofMarker = false := rfl
  simp [updateHunkLine, trimEnd_eofMarker, plain, starts, solid, going, modifyLast]

theorem Updating.ended {chunk : UpdateFileChunk}
    (updating : Updating parser front path movePath (before ++ [chunk]) environmentId)
    (solid : chunk.isBlank = false) (going : chunk.isEndOfFile = false) :
    Reads parser [eofMarker] fun next =>
      Updating next front path movePath (before ++ [{ chunk with isEndOfFile := true }])
        environmentId := by
  have other (parser : StreamingPatchParser) :
      parser.handleHunkHeadersAndEndPatch (trimEnd eofMarker) = .ok none :=
    handle_other parser rfl (by decide)
  exact updating.line other (fun number => updateHunkLine_eof solid going)

theorem Updating.moved (updating : Updating parser front path none [] environmentId)
    {target : PatchPath} (pathText : PathText target) :
    Reads parser [moveToMarker ++ target] fun next =>
      Updating next front path (some target) [] environmentId := by
  have ends := trimEnd_path moveToMarker pathText
  have other (parser : StreamingPatchParser) :
      parser.handleHunkHeadersAndEndPatch (trimEnd (moveToMarker ++ target)) = .ok none := by
    rw [ends]
    exact handle_other parser rfl (ne_endPatchMarker rfl target)
  have starts : moveToMarker.isPrefixOf (moveToMarker ++ target) = true :=
    isPrefixOf_iff_prefix.mpr (prefix_append _ _)
  have done (number : Nat) :
      updateHunkLine number (moveToMarker ++ target) none [] = .ok (some target, []) := by
    simp [updateHunkLine, ends]
  exact updating.line other done

theorem Updating.opened (updating : Updating parser front path movePath chunks environmentId)
    {chunk : ChunkText} (wellFormed : chunk.WellFormed) (bare : chunk.header = .bare → chunks = [])
    (solid : chunks.getLast?.any UpdateFileChunk.isBlank = false) :
    Reads parser (chunk.header.render ++ chunk.lines.map TaggedLine.render) fun next =>
      Updating next front path movePath (chunks ++ [chunkOf chunk.header chunk.lines])
        environmentId := by
  by_cases headed : chunk.header = .bare
  · -- the first line opens the chunk itself
    obtain ⟨line, more, shape⟩ := exists_cons_of_ne_nil wellFormed.nonempty
    cases bare headed
    have ensured : ensureChunk [] = [] ++ [chunkOf .bare []] := rfl
    rw [headed, shape]
    exact (updating.tagged line ensured rfl).append fun _ reading => reading.lines more
  · exact (updating.headed wellFormed headed solid).append fun _ reading =>
      reading.lines chunk.lines

theorem ChunkText.WellFormed.solid {chunk : ChunkText} (wellFormed : chunk.WellFormed) :
    (chunkOf chunk.header chunk.lines).isBlank = false := by
  rw [isBlank_chunkOf, isEmpty_eq_false_iff]
  exact wellFormed.nonempty

theorem Updating.chunk (updating : Updating parser front path movePath chunks environmentId)
    {chunk : ChunkText} (wellFormed : chunk.WellFormed) (bare : chunk.header = .bare → chunks = [])
    (solid : chunks.getLast?.any UpdateFileChunk.isBlank = false) :
    Reads parser chunk.render fun next =>
      Updating next front path movePath (chunks ++ [chunk.chunk]) environmentId := by
  have opened := updating.opened wellFormed bare solid
  rw [ChunkText.render, ChunkText.chunk]
  cases chunk.endOfFile with
  | false =>
    have ends : (if false = true then [eofMarker] else []) = ([] : List (List Char)) := rfl
    rw [ends, append_nil]
    exact opened
  | true => exact opened.append fun _ reading => reading.ended wellFormed.solid rfl

theorem Updating.others (rest : List ChunkText)
    (updating : Updating parser front path movePath chunks environmentId)
    (wellFormed : ∀ chunk ∈ rest, chunk.WellFormed) (headed : ∀ chunk ∈ rest, chunk.header ≠ .bare)
    (solid : chunks.getLast?.any UpdateFileChunk.isBlank = false) :
    Reads parser (rest.flatMap ChunkText.render) fun next =>
      Updating next front path movePath (chunks ++ rest.map ChunkText.chunk) environmentId := by
  induction rest generalizing parser chunks with
  | nil =>
    rw [map_nil, append_nil]
    exact Reads.nothing updating
  | cons chunk rest ih =>
    obtain ⟨good, goods⟩ := forall_mem_cons.mp wellFormed
    obtain ⟨named, names⟩ := forall_mem_cons.mp headed
    have still : (chunks ++ [chunk.chunk]).getLast?.any UpdateFileChunk.isBlank = false := by
      rw [getLast?_concat]
      exact good.solid
    rw [map_cons, append_cons]
    exact (updating.chunk good (fun bare => absurd bare named) solid).append fun _ reading =>
      ih reading goods names still

end

/-! ### Whole hunks -/

theorem complete_append (hunks : List Hunk) {hunk : Hunk}
    (complete : ∀ path movePath chunks, hunk = .updateFile path movePath chunks →
      ∃ chunk, chunks.getLast? = some chunk ∧ chunk.isBlank = false) :
    Complete (hunks ++ [hunk]) := by
  intro path movePath chunks last
  rw [getLast?_concat] at last
  exact complete path movePath chunks (Option.some.inj last)

section

variable {hunks : List Hunk}

theorem Ready.nextLine (ready : Ready parser hunks environmentId) :
    Ready (nextLine parser) hunks environmentId :=
  ⟨ready.read, ready.environment, ready.begun, ready.going, ready.complete⟩

theorem Ready.header (ready : Ready parser hunks environmentId) {marker path : List Char}
    {post : StreamingPatchParser → Prop}
    (starts : marker.head? = some '*') (pathText : PathText path)
    (handled : (PatchStreaming.nextLine parser).handleHunkHeadersAndEndPatch (marker ++ path) =
      .ok (some next)) (holds : post next) : Reads parser [marker ++ path] post :=
  Reads.single (processLine_trimmed ready.nextLine.begun ready.nextLine.going
    (trim_path starts pathText) handled) holds

variable {path : PatchPath}

section

variable (ready : Ready parser hunks environmentId)
include ready

section

variable (pathText : PathText path)
include pathText

theorem Ready.addFile (lines : List (List Char)) :
    Reads parser (HunkText.addFile path lines).render fun next =>
      Ready next (hunks ++ [(HunkText.addFile path lines).hunk]) environmentId := by
  have complete := ready.nextLine.complete
  rw [← ready.nextLine.read] at complete
  have header : Reads parser [addFileMarker ++ path] fun next =>
      Adding next hunks path [] environmentId :=
    ready.header rfl pathText (handle_addFile complete path)
      ⟨rfl, by rw [ready.nextLine.read], ready.environment⟩
  obtain ⟨next, ran, adding⟩ := header.append fun _ adding => adding.lines lines
  refine ⟨next, ran, adding.hunks, adding.environment, by simp [adding.mode],
    by simp [adding.mode], ?_⟩
  exact complete_append hunks (fun _ _ _ same => Hunk.noConfusion same)

theorem Ready.deleteFile :
    Reads parser (HunkText.deleteFile path).render fun next =>
      Ready next (hunks ++ [(HunkText.deleteFile path).hunk]) environmentId := by
  have complete := ready.nextLine.complete
  rw [← ready.nextLine.read] at complete
  refine ready.header rfl pathText (handle_deleteFile complete path) ⟨?_, ready.environment,
    StreamingParserMode.noConfusion, StreamingParserMode.noConfusion, ?_⟩
  · rw [ready.nextLine.read]
    rfl
  · exact complete_append hunks (fun _ _ _ same => Hunk.noConfusion same)

theorem Ready.update (moveText : ∀ target ∈ movePath, PathText target) :
    Reads parser ([updateFileMarker ++ path] ++ movePath.toList.map (moveToMarker ++ ·)) fun next =>
      Updating next hunks path movePath [] environmentId := by
  have complete := ready.nextLine.complete
  rw [← ready.nextLine.read] at complete
  have header : Reads parser [updateFileMarker ++ path] fun next =>
      Updating next hunks path none [] environmentId :=
    ready.header rfl pathText (handle_updateFile complete path)
      ⟨⟨_, rfl⟩, by rw [ready.nextLine.read], ready.environment⟩
  cases movePath with
  | none => exact header
  | some target => exact header.append fun _ updating => updating.moved (moveText target rfl)

theorem Ready.updateFile
    {first : ChunkText} {rest : List ChunkText} (moveText : ∀ target ∈ movePath, PathText target)
    (chunks : ∀ chunk ∈ first :: rest, chunk.WellFormed)
    (headed : ∀ chunk ∈ rest, chunk.header ≠ .bare) :
    Reads parser (HunkText.updateFile path movePath (first :: rest)).render fun next =>
      Ready next (hunks ++ [(HunkText.updateFile path movePath (first :: rest)).hunk])
        environmentId := by
  obtain ⟨good, goods⟩ := forall_mem_cons.mp chunks
  have solid : ([] ++ [first.chunk]).getLast?.any UpdateFileChunk.isBlank = false := good.solid
  obtain ⟨next, ran, read⟩ := (ready.update pathText moveText).append fun _ updating =>
    (updating.chunk good (fun _ => rfl) rfl).append fun _ reading =>
      reading.others rest goods headed solid
  obtain ⟨number, mode⟩ := read.mode
  refine ⟨next, ran, read.hunks, read.environment, by simp [mode], by simp [mode],
    complete_append hunks ?_⟩
  intro path movePath read same
  cases same
  have nonempty : (first :: rest).map ChunkText.chunk ≠ [] := cons_ne_nil _ _
  refine ⟨_, getLast?_eq_some_getLast nonempty, ?_⟩
  obtain ⟨chunk, member, last⟩ := mem_map.mp (getLast_mem nonempty)
  rw [← last]
  exact (chunks chunk member).solid

end

theorem Ready.hunk {hunk : HunkText} (wellFormed : hunk.WellFormed) :
    Reads parser hunk.render fun next => Ready next (hunks ++ [hunk.hunk]) environmentId := by
  cases wellFormed with
  | addFile pathText texts => exact ready.addFile pathText _
  | deleteFile pathText => exact ready.deleteFile pathText
  | updateFile pathText moveText chunks headed =>
    exact ready.updateFile pathText moveText chunks headed

end

theorem Ready.all (written : List HunkText) (ready : Ready parser hunks environmentId)
    (wellFormed : ∀ hunk ∈ written, hunk.WellFormed) :
    Reads parser (written.flatMap HunkText.render) fun next =>
      Ready next (hunks ++ written.map HunkText.hunk) environmentId := by
  induction written generalizing parser hunks with
  | nil =>
    rw [map_nil, append_nil]
    exact Reads.nothing ready
  | cons hunk written ih =>
    obtain ⟨good, goods⟩ := forall_mem_cons.mp wellFormed
    rw [map_cons, append_cons]
    exact (ready.hunk good).append fun _ reading => ih reading goods

end

/-! ### Whole patches -/

theorem started_ready : Ready started [] none :=
  ⟨rfl, rfl, StreamingParserMode.noConfusion, StreamingParserMode.noConfusion, by simp [Complete]⟩

theorem environment_ready (text : ∀ id ∈ environmentId, EnvironmentText id) :
    Reads started (environmentId.toList.map (environmentIdMarker ++ ' ' :: ·)) fun next =>
      Ready next [] environmentId := by
  cases environmentId with
  | none => exact Reads.nothing started_ready
  | some id =>
    have good := text id rfl
    have solid := not_blank_of_ne good.nonempty good.trimEnd_eq
    have spaced : trim (' ' :: id) = id := by
      have space : trimStart (' ' :: id) = trimStart id := rfl
      exact good.trimmed
    have trimmed : trim (environmentIdMarker ++ ' ' :: id) = environmentIdMarker ++ ' ' :: id := by
      have behind : trimEnd (' ' :: id) = ' ' :: id := by
        have split := trimEnd_append_solid [' '] id solid
        rw [good.trimEnd_eq] at split
        exact split
      exact trim_marker rfl (cons_ne_nil _ _) behind
    have handled : (nextLine started).handleHunkHeadersAndEndPatch
        (environmentIdMarker ++ ' ' :: id) =
        .ok (some { nextLine started with environmentId := some id }) := by
      have mode : (nextLine started).mode = .startedPatch := rfl
      have unset : (nextLine started).environmentId = none := rfl
      unfold handleHunkHeadersAndEndPatch
      rw [if_pos mode, stripPrefix_self]
      simp [unset, spaced, good.nonempty]
    exact Reads.single
      (processLine_trimmed started_ready.begun started_ready.going trimmed handled)
      ⟨rfl, rfl, StreamingParserMode.noConfusion, StreamingParserMode.noConfusion,
        by simp [Complete]⟩

theorem body_read {patch : Patch} (wellFormed : patch.WellFormed) :
    Reads started patch.body fun next =>
      Ready next (patch.hunks.map HunkText.hunk) patch.environmentId :=
  (environment_ready wellFormed.environmentId).append fun _ ready =>
    ready.all patch.hunks wellFormed.hunks

/-! ### The text of a patch -/

theorem lineText_append (plain : '\n' ∉ marker ∧ '\r' ∉ marker)
    (line : LineText text) : LineText (marker ++ text) := by
  constructor
  · intro member
    rcases mem_append.mp member with inside | behind
    · exact plain.1 inside
    · exact line.noNewline behind
  · intro last
    rw [getLast?_append] at last
    cases ends : text.getLast? with
    | none =>
      rw [ends] at last
      exact plain.2 (mem_of_getLast? last)
    | some ch =>
      rw [ends] at last
      exact line.noReturn (ends.trans last)

theorem lineText_marker (plain : '\n' ∉ marker ∧ '\r' ∉ marker) : LineText marker := by
  have nothing : LineText [] := ⟨not_mem_nil, nofun⟩
  have whole := lineText_append plain nothing
  rwa [append_nil] at whole

theorem LineText.plus (line : LineText text) : LineText ('+' :: text) :=
  lineText_append (show '\n' ∉ ['+'] ∧ '\r' ∉ ['+'] by decide) line

theorem LineText.tagged {tagged : TaggedLine} (line : LineText tagged.text) :
    LineText tagged.render := by
  cases tagged with
  | context text =>
    exact lineText_append (show '\n' ∉ [' '] ∧ '\r' ∉ [' '] by decide) line
  | added text => exact line.plus
  | removed text =>
    exact lineText_append (show '\n' ∉ ['-'] ∧ '\r' ∉ ['-'] by decide) line

theorem lineText_of_trimmed (noNewline : '\n' ∉ text)
    (trimmed : trimEnd text = text) : LineText text := by
  refine ⟨noNewline, fun last => ?_⟩
  have nonempty : text ≠ [] := by
    intro empty
    rw [empty] at last
    cases last
  have solid := rdropWhile_eq_self_iff.mp trimmed nonempty
  rw [getLast?_eq_some_getLast nonempty] at last
  rw [Option.some.inj last] at solid
  exact solid (by decide)

theorem PathText.lineText (pathText : PathText path) : LineText path :=
  lineText_of_trimmed pathText.noNewline pathText.trimEnd_eq

theorem ChunkText.WellFormed.texts {chunk : ChunkText} (wellFormed : chunk.WellFormed) :
    ∀ line ∈ chunk.render, LineText line := by
  intro line member
  rw [ChunkText.render, mem_append, mem_append] at member
  rcases member with (header | tagged) | eof
  · cases shape : chunk.header with
    | bare =>
      rw [shape] at header
      cases header
    | plain =>
      rw [shape] at header
      cases mem_singleton.mp header
      exact lineText_marker (by decide)
    | named context =>
      have text := wellFormed.header context shape
      rw [shape] at header
      cases mem_singleton.mp header
      exact lineText_append (by decide) (lineText_of_trimmed text.noNewline text.trimmed)
  · obtain ⟨source, inside, rfl⟩ := mem_map.mp tagged
    exact (wellFormed.lines source inside).tagged
  · cases ended : chunk.endOfFile with
    | false =>
      rw [ended] at eof
      cases eof
    | true =>
      rw [ended] at eof
      cases mem_singleton.mp eof
      exact lineText_marker (by decide)

theorem HunkText.WellFormed.texts {hunk : HunkText} (wellFormed : hunk.WellFormed) :
    ∀ line ∈ hunk.render, LineText line := by
  intro line member
  cases wellFormed with
  | addFile pathText texts =>
    rcases mem_cons.mp member with rfl | added
    · exact lineText_append (by decide) pathText.lineText
    · obtain ⟨text, inside, rfl⟩ := mem_map.mp added
      exact (texts text inside).plus
  | deleteFile pathText =>
    cases mem_singleton.mp member
    exact lineText_append (by decide) pathText.lineText
  | updateFile pathText moveText chunks headed =>
    rcases mem_cons.mp member with rfl | behind
    · exact lineText_append (by decide) pathText.lineText
    rcases mem_append.mp behind with move | inside
    · obtain ⟨target, named, rfl⟩ := mem_map.mp move
      exact lineText_append (by decide) (moveText target (Option.mem_toList.mp named)).lineText
    · obtain ⟨chunk, source, line⟩ := mem_flatMap.mp inside
      exact (chunks chunk source).texts _ line

theorem Patch.WellFormed.texts {patch : Patch} (wellFormed : patch.WellFormed) :
    ∀ line ∈ patch.body, LineText line := by
  intro line member
  rcases mem_append.mp member with environment | inside
  · obtain ⟨id, named, rfl⟩ := mem_map.mp environment
    have good := wellFormed.environmentId id (Option.mem_toList.mp named)
    have spaced : LineText (' ' :: id) :=
      lineText_append (show '\n' ∉ [' '] ∧ '\r' ∉ [' '] by decide)
        (lineText_of_trimmed good.noNewline good.trimEnd_eq)
    exact lineText_append (by decide) spaced
  · obtain ⟨hunk, source, line⟩ := mem_flatMap.mp inside
    exact (wellFormed.hunks hunk source).texts _ line

theorem unlines_append (parts : List (List Char)) (last : List Char) :
    unlines parts last = unlines parts [] ++ last := by
  induction parts with
  | nil => rfl
  | cons line parts ih => rw [unlines, unlines, ih, append_assoc, cons_append]

theorem map_stripReturn {lines : List (List Char)} (texts : ∀ line ∈ lines, LineText line) :
    lines.map stripReturn = lines := by
  have kept (line : List Char) (member : line ∈ lines) : stripReturn line = id line := by
    rw [stripReturn, if_neg (texts line member).noReturn, id]
  rw [map_congr_left kept, map_id]

section

variable {patch : Patch}

theorem render_eq (patch : Patch) :
    patch.render = unlines (beginPatchMarker :: patch.body) endPatchMarker := by
  rw [Patch.render, ← cons_append, joinLines_concat]

theorem trim_render (patch : Patch) : trim patch.render = patch.render := by
  have front : trimStart patch.render = patch.render := by
    rw [render_eq]
    exact trimStart_cons rfl _
  have back : trimEnd patch.render = patch.render := by
    have ends : trimEnd endPatchMarker = endPatchMarker := by decide
    have solid : ¬ Blank endPatchMarker := not_blank_of_ne (by decide) ends
    rw [render_eq, unlines_append, trimEnd_append_solid _ _ solid, ends]
  rw [trim, front, back]

theorem cutLines_render (wellFormed : patch.WellFormed) :
    cutLines patch.render = (beginPatchMarker :: patch.body, endPatchMarker) := by
  rw [render_eq]
  refine cutLines_unlines _ _ (forall_mem_cons.mpr ⟨by decide, ?_⟩) (by decide)
  exact fun line member => (wellFormed.texts line member).noNewline

theorem lines_render (wellFormed : patch.WellFormed) :
    lines patch.render = beginPatchMarker :: (patch.body ++ [endPatchMarker]) := by
  have texts : ∀ line ∈ beginPatchMarker :: patch.body, LineText line :=
    forall_mem_cons.mpr ⟨lineText_marker (by decide), wellFormed.texts⟩
  have solid : endPatchMarker ≠ [] := by decide
  rw [lines, cutLines_render wellFormed, map_stripReturn texts, if_neg solid, cons_append]

theorem bounds_render (patch : Patch) :
    checkPatchBoundariesLenient (beginPatchMarker :: (patch.body ++ [endPatchMarker])) =
      .ok (beginPatchMarker :: (patch.body ++ [endPatchMarker])) := by
  have first : trim beginPatchMarker = beginPatchMarker := by decide
  have last : trim endPatchMarker = endPatchMarker := by decide
  have ends : (beginPatchMarker :: (patch.body ++ [endPatchMarker])).getLast? =
      some endPatchMarker := by
    rw [← cons_append, getLast?_concat]
  have checked : checkStartAndEndLinesStrict (some beginPatchMarker) (some endPatchMarker) =
      .ok () := by
    simp [checkStartAndEndLinesStrict, first, last]
  rw [checkPatchBoundariesLenient, checkPatchBoundariesStrict, head?_cons, ends]
  rfl

/-- A patch written in the documented grammar is parsed into what it says, with or without a line
feed or other blank text behind its end marker. -/
theorem rendered_patch_parsed (patch : Patch) (wellFormed : patch.WellFormed) (ending : List Char)
    (blank : Blank ending) :
    parsePatch (patch.render ++ ending) =
      .ok ⟨patch.hunks.map HunkText.hunk, patch.render, patch.environmentId⟩ := by
  obtain ⟨parser, ran, ready⟩ := body_read wellFormed
  have kept := map_stripReturn wellFormed.texts
  have pushed : StreamingPatchParser.default.pushDelta patch.render =
      .ok { parser with lineBuffer := endPatchMarker } := by
    rw [pushDelta_started (cutLines_render wellFormed) (by decide), kept, ran]
    rfl
  have marker : trim endPatchMarker = endPatchMarker := by decide
  have complete : Complete (nextLine { parser with lineBuffer := [] }).hunks :=
    ready.read ▸ ready.complete
  have finished : finish { parser with lineBuffer := endPatchMarker } =
      .ok { nextLine { parser with lineBuffer := [] } with mode := .endedPatch } := by
    rw [finish_marker marker, ensure_ok complete]
    rfl
  rw [parsePatch, trim_append_blank _ _ blank, trim_render, lines_render wellFormed, bounds_render]
  change (StreamingPatchParser.default.pushDelta patch.render >>= _) = _
  rw [pushed]
  change (finish { parser with lineBuffer := endPatchMarker } >>= _) = _
  rw [finished, ← ready.read, ← ready.environment]
  rfl

def movedChunk : ChunkText where
  header := .named "fn main".toList
  lines := [.context [], .removed "old".toList, .added "*** End Patch".toList]
  endOfFile := true

def movedPatch : Patch where
  environmentId := some "remote".toList
  hunks := [.updateFile "a".toList (some "b".toList) [movedChunk]]

theorem movedChunk_wellFormed : movedChunk.WellFormed where
  header := by
    intro context same
    cases same
    exact ⟨by decide, by decide, by decide⟩
  nonempty := by decide
  lines := by
    intro line member
    simp only [movedChunk, mem_cons, not_mem_nil, or_false] at member
    rcases member with rfl | rfl | rfl
    · exact ⟨by decide, by decide⟩
    · exact ⟨by decide, by decide⟩
    · exact ⟨by decide, by decide⟩

theorem movedPatch_wellFormed : movedPatch.WellFormed where
  environmentId := by
    intro id same
    cases same
    exact ⟨by decide, by decide, by decide⟩
  hunks := by
    intro hunk member
    cases mem_singleton.mp member
    refine .updateFile ⟨by decide, by decide, by decide, by decide⟩ ?_ ?_ nofun
    · intro path same
      cases same
      exact ⟨by decide, by decide, by decide, by decide⟩
    · intro chunk member
      cases mem_singleton.mp member
      exact movedChunk_wellFormed

theorem moved_patch_parsed :
    parsePatch (movedPatch.render ++ ['\n']) = .ok ⟨[.updateFile "a".toList (some "b".toList)
          [⟨some "fn main".toList, [[], "old".toList], [[], "*** End Patch".toList], [(0, 0)],
            true⟩]],
        movedPatch.render, some "remote".toList⟩ := by
  have blank : Blank ['\n'] := by
    intro ch member
    rw [mem_singleton.mp member]
    decide
  exact rendered_patch_parsed movedPatch movedPatch_wellFormed ['\n'] blank

def spacedPatch : Patch where
  environmentId := some " remote".toList
  hunks := [.updateFile "a".toList none
    [{ header := .named "fn main ".toList, lines := [.added []], endOfFile := false }]]

/-- Space behind a change context and around an environment id is not kept. -/
theorem spaced_context_trimmed :
    (parsePatch spacedPatch.render).map (fun args => (args.hunks, args.environmentId)) =
      .ok ([.updateFile "a".toList none [⟨some "fn main".toList, [], [[]], [], false⟩]],
        some "remote".toList) ∧
      spacedPatch.hunks.map HunkText.hunk =
        [.updateFile "a".toList none [⟨some "fn main ".toList, [], [[]], [], false⟩]] := by
  decide +kernel

end

end OpenInterpreter.PatchText
