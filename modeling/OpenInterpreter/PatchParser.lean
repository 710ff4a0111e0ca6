import OpenInterpreter.Text

/-! The patch parser of `apply-patch`: the line machine of `streaming_parser.rs` and
`parse_patch` of `parser.rs`, which runs the same machine on a whole text. -/

namespace OpenInterpreter.PatchParser

open Text

abbrev PatchPath := List Char

def beginPatchMarker : List Char := "*** Begin Patch".toList
def endPatchMarker : List Char := "*** End Patch".toList
def addFileMarker : List Char := "*** Add File: ".toList
def deleteFileMarker : List Char := "*** Delete File: ".toList
def updateFileMarker : List Char := "*** Update File: ".toList
def moveToMarker : List Char := "*** Move to: ".toList
def eofMarker : List Char := "*** End of File".toList
def changeContextMarker : List Char := "@@ ".toList
def emptyChangeContextMarker : List Char := "@@".toList
def environmentIdMarker : List Char := "*** Environment ID:".toList

inductive ParseError where
  | invalidPatchError (message : String)
  | invalidHunkError (message : String) (lineNumber : Nat)
  deriving DecidableEq

structure UpdateFileChunk where
  changeContext : Option (List Char)
  oldLines : List (List Char)
  newLines : List (List Char)
  contextLineIndices : List (Nat × Nat)
  isEndOfFile : Bool
  deriving DecidableEq

def UpdateFileChunk.default : UpdateFileChunk := ⟨none, [], [], [], false⟩

def UpdateFileChunk.pushContextLine (chunk : UpdateFileChunk) (line : List Char) :
    UpdateFileChunk :=
  { chunk with
    contextLineIndices := chunk.contextLineIndices ++ [(chunk.oldLines.length, chunk.newLines.length)]
    oldLines := chunk.oldLines ++ [line]
    newLines := chunk.newLines ++ [line] }

def UpdateFileChunk.isBlank (chunk : UpdateFileChunk) : Bool :=
  chunk.oldLines.isEmpty && chunk.newLines.isEmpty

inductive Hunk where
  | addFile (path : PatchPath) (contents : List Char)
  | deleteFile (path : PatchPath)
  | updateFile (path : PatchPath) (movePath : Option PatchPath) (chunks : List UpdateFileChunk)
  deriving DecidableEq

inductive StreamingParserMode where
  | notStarted
  | startedPatch
  | addFile
  | deleteFile
  | updateFile (hunkLineNumber : Nat)
  | endedPatch
  deriving DecidableEq

structure StreamingPatchParser where
  lineBuffer : List Char
  mode : StreamingParserMode
  hunks : List Hunk
  environmentId : Option (List Char)
  lineNumber : Nat
  deriving DecidableEq

def StreamingPatchParser.default : StreamingPatchParser := ⟨[], .notStarted, [], none, 0⟩

def unexpectedLine (line : List Char) : String :=
  "Unexpected line found in update hunk: '" ++ String.ofList line ++
    "'. Every line should start with ' ' (context line), '+' (added line), or '-' (removed line)"

def expectedContext (line : List Char) : String :=
  "Expected update hunk to start with a @@ context marker, got: '" ++ String.ofList line ++ "'"

def invalidHeader (trimmed : List Char) : String :=
  "'" ++ String.ofList trimmed ++ "' is not a valid hunk header. Valid hunk headers: " ++
    "'*** Add File: \x7bpath\x7d', '*** Delete File: \x7bpath\x7d', '*** Update File: \x7bpath\x7d'"

def lastLineError : ParseError :=
  .invalidPatchError "The last line of the patch must be '*** End Patch'"

def firstLineError : ParseError :=
  .invalidPatchError "The first line of the patch must be '*** Begin Patch'"

variable (parser : StreamingPatchParser)

def StreamingPatchParser.ensureUpdateHunkIsNotEmpty (line : List Char) : Except ParseError Unit :=
  match parser.hunks.getLast? with
  | some (.updateFile path _ chunks) =>
    match chunks.getLast?, parser.mode with
    | none, .updateFile hunkLineNumber =>
      .error (.invalidHunkError
        ("Update file hunk for path '" ++ String.ofList path ++ "' is empty") hunkLineNumber)
    | some chunk, _ =>
      if chunk.isBlank then
        if line = endPatchMarker then
          .error (.invalidHunkError "Update hunk does not contain any lines" parser.lineNumber)
        else .error (.invalidHunkError (unexpectedLine line) parser.lineNumber)
      else .ok ()
    | none, _ => .ok ()
  | _ => .ok ()

def StreamingPatchParser.startHunk (trimmed : List Char)
    (hunk : Hunk) (mode : StreamingParserMode) : Except ParseError (Option StreamingPatchParser) := do
  parser.ensureUpdateHunkIsNotEmpty trimmed
  return some { parser with hunks := parser.hunks ++ [hunk], mode := mode }

def StreamingPatchParser.handleHunkHeadersAndEndPatch (trimmed : List Char) :
    Except ParseError (Option StreamingPatchParser) :=
  match (if parser.mode = .startedPatch then stripPrefix environmentIdMarker trimmed else none) with
  | some environmentId =>
    if parser.environmentId.isSome then
      .error (.invalidPatchError "apply_patch environment_id cannot be specified more than once")
    else if trim environmentId = [] then
      .error (.invalidPatchError "apply_patch environment_id cannot be empty")
    else .ok (some { parser with environmentId := some (trim environmentId) })
  | none =>
    if trimmed = endPatchMarker then do
      parser.ensureUpdateHunkIsNotEmpty trimmed
      return some { parser with mode := .endedPatch }
    else
      match stripPrefix addFileMarker trimmed, stripPrefix deleteFileMarker trimmed,
        stripPrefix updateFileMarker trimmed with
      | some path, _, _ => parser.startHunk trimmed (.addFile path []) .addFile
      | none, some path, _ => parser.startHunk trimmed (.deleteFile path) .deleteFile
      | none, none, some path =>
        parser.startHunk trimmed (.updateFile path none []) (.updateFile parser.lineNumber)
      | none, none, none => .ok none

def ensureChunk (chunks : List UpdateFileChunk) : List UpdateFileChunk :=
  if chunks.isEmpty then [.default] else chunks

def modifyLast {α : Type} (change : α → α) (items : List α) : List α :=
  items.dropLast ++ (items.getLast?.map change).toList

def isContextMarker (updateLine : List Char) : Bool :=
  updateLine == emptyChangeContextMarker || changeContextMarker.isPrefixOf updateLine

def pushUpdateLine (line : List Char) (chunk : UpdateFileChunk) : Option UpdateFileChunk :=
  match line with
  | [] => some (chunk.pushContextLine [])
  | ' ' :: text => some (chunk.pushContextLine text)
  | '+' :: text => some { chunk with newLines := chunk.newLines ++ [text] }
  | '-' :: text => some { chunk with oldLines := chunk.oldLines ++ [text] }
  | _ => none

/-- The part of `process_line` for a line of an update hunk. -/
def updateHunkLine (lineNumber : Nat) (line : List Char) (movePath : Option PatchPath)
    (chunks : List UpdateFileChunk) :
    Except ParseError (Option PatchPath × List UpdateFileChunk) :=
  let updateLine := trimEnd line
  let ended := chunks.getLast?.any UpdateFileChunk.isEndOfFile
  let blank := chunks.getLast?.any UpdateFileChunk.isBlank
  if ended && updateLine.isEmpty then .ok (movePath, chunks)
  else if ended && !isContextMarker updateLine then
    .error (.invalidHunkError (expectedContext line) lineNumber)
  else if chunks.isEmpty && movePath.isNone && moveToMarker.isPrefixOf updateLine then
    .ok (some (updateLine.drop moveToMarker.length), chunks)
  else if isContextMarker updateLine && blank then
    .error (.invalidHunkError (unexpectedLine line) lineNumber)
  else if updateLine = emptyChangeContextMarker then .ok (movePath, chunks ++ [.default])
  else if changeContextMarker.isPrefixOf updateLine then
    .ok (movePath, chunks ++ [{ UpdateFileChunk.default with
          changeContext := some (updateLine.drop changeContextMarker.length) }])
  else if updateLine = eofMarker then
    if blank then
      .error (.invalidHunkError "Update hunk does not contain any lines" lineNumber)
    else .ok (movePath, modifyLast (fun chunk => { chunk with isEndOfFile := true }) chunks)
  else
    match (ensureChunk chunks).getLast?.bind (pushUpdateLine line) with
    | some chunk => .ok (movePath, (ensureChunk chunks).dropLast ++ [chunk])
    | none =>
      if chunks.getLast?.any (fun chunk => !chunk.isBlank) then
        .error (.invalidHunkError (expectedContext line) lineNumber)
      else .error (.invalidHunkError (unexpectedLine line) lineNumber)

def StreamingPatchParser.processLine (line : List Char) : Except ParseError StreamingPatchParser :=
  let trimmed := trim line
  match parser.mode with
  | .notStarted =>
    if trimmed = beginPatchMarker then .ok { parser with mode := .startedPatch }
    else .error firstLineError
  | .startedPatch | .deleteFile => do
      match ← parser.handleHunkHeadersAndEndPatch trimmed with
      | some next => return next
      | none => .error (.invalidHunkError (invalidHeader trimmed) parser.lineNumber)
  | .addFile => do
      match ← parser.handleHunkHeadersAndEndPatch trimmed with
      | some next => return next
      | none =>
        match line, parser.hunks.getLast? with
        | '+' :: lineToAdd, some (.addFile path contents) =>
          return { parser with
            hunks := parser.hunks.dropLast ++ [.addFile path (contents ++ lineToAdd ++ ['\n'])] }
        | _, _ => .error (.invalidHunkError (invalidHeader trimmed) parser.lineNumber)
  | .updateFile _ => do
      match ← parser.handleHunkHeadersAndEndPatch (trimEnd line) with
      | some next => return next
      | none =>
        match parser.hunks.getLast? with
        | some (.updateFile path movePath chunks) =>
          let updated ← updateHunkLine parser.lineNumber line movePath chunks
          return { parser with
            hunks := parser.hunks.dropLast ++ [.updateFile path updated.1 updated.2] }
        | _ => .error (.invalidHunkError (unexpectedLine line) parser.lineNumber)
  | .endedPatch => if trimmed = [] then .ok parser else .error lastLineError

def StreamingPatchParser.pushChar (ch : Char) : Except ParseError StreamingPatchParser :=
  if ch = '\n' then
    { parser with lineBuffer := [], lineNumber := parser.lineNumber + 1 }.processLine
      (stripReturn parser.lineBuffer)
  else .ok { parser with lineBuffer := parser.lineBuffer ++ [ch] }

def StreamingPatchParser.pushDelta (delta : List Char) :
    Except ParseError StreamingPatchParser := delta.foldlM pushChar parser

def StreamingPatchParser.finish : Except ParseError StreamingPatchParser := do
  let next ←
    if parser.lineBuffer = [] then pure parser
    else
      let taken : StreamingPatchParser :=
        { parser with lineBuffer := [], lineNumber := parser.lineNumber + 1 }
      if trim parser.lineBuffer = endPatchMarker then do
        taken.ensureUpdateHunkIsNotEmpty (trim parser.lineBuffer)
        return { taken with mode := .endedPatch }
      else taken.processLine parser.lineBuffer
  if next.mode = .endedPatch then return next else .error lastLineError

structure ApplyPatchArgs where
  hunks : List Hunk
  patch : List Char
  environmentId : Option (List Char)
  deriving DecidableEq

def checkStartAndEndLinesStrict (firstLine lastLine : Option (List Char)) :
    Except ParseError Unit :=
  match firstLine.map trim, lastLine.map trim with
  | some first, some last =>
    if first = beginPatchMarker then
      if last = endPatchMarker then .ok () else .error lastLineError
    else .error firstLineError
  | some first, none => if first =
      beginPatchMarker then .error lastLineError else .error firstLineError
  | none, _ => .error lastLineError

def checkPatchBoundariesStrict (lines : List (List Char)) : Except ParseError (List (List Char)) := do
  checkStartAndEndLinesStrict lines.head? lines.getLast?
  return lines

def isHeredocStart (line : List Char) : Bool :=
  line == "<<EOF".toList || line == "<<'EOF'".toList || line == "<<\"EOF\"".toList

def checkPatchBoundariesLenient (lines : List (List Char)) : Except ParseError (List (List Char)) :=
  match checkPatchBoundariesStrict lines with
  | .ok checked => .ok checked
  | .error originalParseError =>
    if lines.head?.any isHeredocStart && lines.getLast?.any
      (fun last => "EOF".toList.isSuffixOf last) &&
        4 ≤ lines.length then
      checkPatchBoundariesStrict lines.tail.dropLast
    else .error originalParseError

def parsePatch (patch : List Char) : Except ParseError ApplyPatchArgs := do
  let patchLines ← checkPatchBoundariesLenient (lines (trim patch))
  let joined := joinLines patchLines
  let pushed ← StreamingPatchParser.default.pushDelta joined
  let finished ← pushed.finish
  return ⟨finished.hunks, joined, finished.environmentId⟩

end OpenInterpreter.PatchParser
