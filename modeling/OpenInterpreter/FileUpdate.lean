import Mathlib.Data.List.Sort
import OpenInterpreter.PatchParser

/-! The text of an updated file: `seek_sequence.rs`, `text_file.rs` and `file_update.rs`. -/

namespace OpenInterpreter.FileUpdate

open Text PatchParser List

inductive ApplyPatchFileUpdateMode where
  | normalizeToLf
  | preserveLineEndings
  deriving DecidableEq

def normaliseChar (ch : Char) : Char :=
  let code := ch.toNat
  if (0x2010 ≤ code ∧ code ≤ 0x2015) ∨ code = 0x2212 then '-'
  else if 0x2018 ≤ code ∧ code ≤ 0x201B then '\''
  else if 0x201C ≤ code ∧ code ≤ 0x201F then '"'
  else if code = 0x00A0 ∨ (0x2002 ≤ code ∧ code ≤ 0x200A) ∨ code = 0x202F ∨ code = 0x205F ∨
    code = 0x3000 then ' '
  else ch

def normalise (text : List Char) : List Char := (trim text).map normaliseChar

def windowMatches (key : List Char → List Char) (lines pattern : List (List Char)) (index : Nat) :
    Bool :=
  ((lines.drop index).take pattern.length).map key == pattern.map key

def firstWindow (key : List Char → List Char) (lines pattern : List (List Char)) (start : Nat) :
    Option Nat :=
  (range' start (lines.length - pattern.length + 1 - start)).find?
    (windowMatches key lines pattern)

def seekSequence (lines pattern : List (List Char)) (start : Nat) (eof : Bool)
    (mode : ApplyPatchFileUpdateMode) : Option Nat :=
  if pattern = [] then some start
  else if lines.length < pattern.length then none
  else
    let searchStart :=
      if eof then
        match mode with
        | .normalizeToLf => lines.length - pattern.length
        | .preserveLineEndings => max (lines.length - pattern.length) start
      else start
    (firstWindow id lines pattern searchStart).orElse fun _ =>
      (firstWindow trimEnd lines pattern searchStart).orElse fun _ =>
        (firstWindow trim lines pattern searchStart).orElse fun _ =>
          firstWindow normalise lines pattern searchStart

/-- `(start_index, old_len, new_lines)`. -/
structure Replacement where
  start : Nat
  oldLen : Nat
  newLines : List (List Char)
  deriving DecidableEq

/-- Why no new text comes out: a message of `ComputeReplacements`, or a panic of the program
at a subtraction, slice or insertion out of range. -/
inductive UpdateFailure where
  | computeReplacements (message : List Char)
  | panicked
  deriving DecidableEq

def contextReplacements (startIdx : Nat) (pattern newSlice : List (List Char)) :
    List (Nat × Nat) → Nat → Nat → Except UpdateFailure (List Replacement)
  | [], oldStart, newStart =>
    .ok (if oldStart ≠ pattern.length ∨ newStart ≠ newSlice.length then
      [⟨startIdx + oldStart, pattern.length - oldStart, newSlice.drop newStart⟩] else [])
  | (oldContext, newContext) :: rest, oldStart, newStart =>
    -- a trailing empty context line may have been cut from both sides
    if pattern.length ≤ oldContext ∨ newSlice.length ≤ newContext then
      contextReplacements startIdx pattern newSlice [] oldStart newStart
    else if oldContext < oldStart ∨ newContext < newStart then .error .panicked
    else do
      let later ← contextReplacements startIdx pattern newSlice rest (oldContext + 1)
        (newContext + 1)
      return (if oldStart ≠ oldContext ∨ newStart ≠ newContext then
        [⟨startIdx + oldStart, oldContext - oldStart,
          (newSlice.take newContext).drop newStart⟩] else []) ++ later

def missingContext (context path : List Char) : List Char :=
  "Failed to find context '".toList ++ context ++ "' in ".toList ++ path

def missingLines (oldLines : List (List Char)) (path : List Char) : List Char :=
  "Failed to find expected lines in ".toList ++ path ++ ":\n".toList ++ joinLines oldLines

variable (originalLines : List (List Char))

def locateChunk (mode : ApplyPatchFileUpdateMode) (chunk : UpdateFileChunk) (lineIndex : Nat) :
    Option (Nat × List (List Char) × List (List Char)) :=
  match seekSequence originalLines chunk.oldLines lineIndex chunk.isEndOfFile mode with
  | some startIdx => some (startIdx, chunk.oldLines, chunk.newLines)
  | none =>
    if chunk.oldLines.getLast? = some [] then
      let pattern := chunk.oldLines.dropLast
      let newSlice :=
        if chunk.newLines.getLast? = some [] then chunk.newLines.dropLast else chunk.newLines
      (seekSequence originalLines pattern lineIndex chunk.isEndOfFile mode).map
        fun startIdx => (startIdx, pattern, newSlice)
    else none

def insertionIdx : ApplyPatchFileUpdateMode → Nat
  | .normalizeToLf =>
    if originalLines.getLast? = some [] then originalLines.length - 1
    else originalLines.length
  | .preserveLineEndings => originalLines.length

def chunkReplacements (mode : ApplyPatchFileUpdateMode) (chunk : UpdateFileChunk)
    (startIdx : Nat) (pattern newSlice : List (List Char)) :
    Except UpdateFailure (List Replacement) :=
  match mode with
  | .normalizeToLf => .ok [⟨startIdx, pattern.length, newSlice⟩]
  | .preserveLineEndings =>
    contextReplacements startIdx pattern newSlice chunk.contextLineIndices 0 0

def collectReplacements (originalLines : List (List Char)) (path : List Char)
    (mode : ApplyPatchFileUpdateMode) :
    List UpdateFileChunk → Nat → Except UpdateFailure (List Replacement)
  | [], _ => .ok []
  | chunk :: chunks, lineIndex => do
      let lineIndex ←
        match chunk.changeContext with
        | none => .ok lineIndex
        | some context =>
          match seekSequence originalLines [context] lineIndex false mode with
          | some idx => .ok (idx + 1)
          | none => .error (.computeReplacements (missingContext context path))
      if chunk.oldLines = [] then do
        let later ← collectReplacements originalLines path mode chunks lineIndex
        return ⟨insertionIdx originalLines mode, 0, chunk.newLines⟩ :: later
      else
        match locateChunk originalLines mode chunk lineIndex with
        | none => .error (.computeReplacements (missingLines chunk.oldLines path))
        | some (startIdx, pattern, newSlice) => do
            let here ← chunkReplacements mode chunk startIdx pattern newSlice
            let later ← collectReplacements originalLines path mode chunks
              (startIdx + pattern.length)
            return here ++ later

def computeReplacements (path : List Char)
    (chunks : List UpdateFileChunk) (mode : ApplyPatchFileUpdateMode) :
    Except UpdateFailure (List Replacement) :=
  (collectReplacements originalLines path mode chunks 0).map
    (insertionSort fun left right => left.start ≤ right.start)

def applyReplacements (lines : List (List Char)) (replacements : List Replacement) :
    Except UpdateFailure (List (List Char)) :=
  replacements.foldrM (fun replacement lines =>
    if lines.length < replacement.start ∧ replacement.newLines ≠ [] then .error .panicked
    else .ok (lines.take replacement.start ++ replacement.newLines ++
      lines.drop (replacement.start + replacement.oldLen))) lines

inductive LineEnding where
  | lf
  | crLf
  | cr
  deriving DecidableEq

def LineEnding.asStr : LineEnding → List Char
  | .lf => ['\n']
  | .crLf => ['\r', '\n']
  | .cr => ['\r']

structure SourceLine where
  text : List Char
  ending : Option LineEnding
  deriving DecidableEq

structure SourceFile where
  lines : List SourceLine
  preferredEnding : LineEnding
  deriving DecidableEq

def sourceLines (text : List Char) : List Char → List SourceLine
  | [] => if text = [] then [] else [⟨text, none⟩]
  | '\r' :: '\n' :: rest => ⟨text, some .crLf⟩ :: sourceLines [] rest
  | '\r' :: rest => ⟨text, some .cr⟩ :: sourceLines [] rest
  | '\n' :: rest => ⟨text, some .lf⟩ :: sourceLines [] rest
  | ch :: rest => sourceLines (text ++ [ch]) rest

def SourceFile.parse (contents : List Char) : SourceFile where
  lines := sourceLines [] contents
  preferredEnding := ((sourceLines [] contents).head?.bind SourceLine.ending).getD .lf

def SourceFile.lineTexts (file : SourceFile) : List (List Char) := file.lines.map SourceLine.text

def spliceLines (preferred : LineEnding) :
    List SourceLine → Nat → List Replacement → Except UpdateFailure (List SourceLine)
  | source, _, [] => .ok source
  | source, sourceIndex, replacement :: replacements =>
    if replacement.start < sourceIndex then .error .panicked
    else do
      let kept := replacement.start - sourceIndex
      let later ← spliceLines preferred ((source.drop kept).drop replacement.oldLen)
        (replacement.start + replacement.oldLen) replacements
      return source.take kept ++
        replacement.newLines.map (fun text => ⟨text, some preferred⟩) ++ later

def SourceFile.applyReplacements (file : SourceFile) (replacements : List Replacement) :
    Except UpdateFailure SourceFile :=
  (spliceLines file.preferredEnding file.lines 0 replacements).map fun lines =>
    { file with
      lines := lines.map fun line =>
        { line with ending := some (line.ending.getD file.preferredEnding) } }

def SourceFile.intoContents (file : SourceFile) : List Char :=
  file.lines.flatMap fun line => line.text ++ (line.ending.elim [] LineEnding.asStr)

def splitLf (contents : List Char) : List (List Char) :=
  let parts := (cutLines contents).1 ++ [(cutLines contents).2]
  if parts.getLast? = some [] then parts.dropLast else parts

def deriveNewContents (path : List Char) (chunks : List UpdateFileChunk)
    (mode : ApplyPatchFileUpdateMode) (contents : List Char) : Except UpdateFailure (List Char) :=
  match mode with
  | .normalizeToLf => do
      let replacements ← computeReplacements (splitLf contents) path chunks mode
      let lines ← FileUpdate.applyReplacements (splitLf contents) replacements
      return joinLines (if lines.getLast? = some [] then lines else lines ++ [[]])
  | .preserveLineEndings => do
      let file := SourceFile.parse contents
      let replacements ← computeReplacements file.lineTexts path chunks mode
      let updated ← file.applyReplacements replacements
      return updated.intoContents

end OpenInterpreter.FileUpdate
