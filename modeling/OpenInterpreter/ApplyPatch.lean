import OpenInterpreter.FileUpdate
import OpenInterpreter.StateProgram

/-! `apply_hunks_to_files` of `apply-patch/src/lib.rs`, over the file system calls it makes. -/

namespace OpenInterpreter.ApplyPatch

open Text PatchParser FileUpdate StateProgram

inductive ErrorKind where
  | notFound
  | invalidInput
  | invalidData
  | other
  deriving DecidableEq

structure FileMetadata where
  isDirectory : Bool
  isFile : Bool
  isSymlink : Bool
  deriving DecidableEq

/-- The calls of `ExecutorFileSystem` that are made here. A world holds the files and all
that decides whether the next call fails; the first argument is `follow_symlinks`. -/
structure ExecutorFileSystem (World PathUri : Type) where
  getMetadata : Bool → PathUri → World → Except ErrorKind FileMetadata × World
  readFileText : Bool → PathUri → World → Except ErrorKind (List Char) × World
  writeFile : Bool → PathUri → List Char → World → Except ErrorKind Unit × World
  createDirectory : Bool → PathUri → World → Except ErrorKind Unit × World
  remove : Bool → PathUri → World → Except ErrorKind Unit × World

variable (PathUri : Type)

structure PathOps where
  join : PathUri → List Char → Except (List Char) PathUri
  parent : PathUri → Option PathUri
  inferredNativePathString : PathUri → List Char

structure ApplyPatchOptions where
  updateFileMode : ApplyPatchFileUpdateMode
  followSymlinks : Bool
  deriving DecidableEq

inductive ApplyPatchError where
  | message (text : List Char)
  | parseError (error : ParseError)
  | ioError (context : List Char) (source : ErrorKind)
  | computeReplacements (text : List Char)
  | pathUri (text : List Char)
  | panicked
  deriving DecidableEq

inductive AppliedPatchFileChange where
  | add (content : List Char) (overwrittenContent : Option (List Char))
  | delete (content : List Char)
  | update (movePath : Option PathUri) (oldContent : List Char)
      (overwrittenMoveContent : Option (List Char)) (newContent : List Char)
  deriving DecidableEq

structure AppliedPatchChange where
  path : PathUri
  change : AppliedPatchFileChange PathUri
  deriving DecidableEq

structure AppliedPatchDelta where
  changes : List (AppliedPatchChange PathUri)
  exact : Bool
  deriving DecidableEq

def AppliedPatchDelta.empty {PathUri : Type} : AppliedPatchDelta PathUri := ⟨[], true⟩

structure AffectedPaths where
  added : List PatchPath
  modified : List PatchPath
  deleted : List PatchPath
  deriving DecidableEq

structure PatchRun (World PathUri : Type) where
  world : World
  delta : AppliedPatchDelta PathUri
  affected : AffectedPaths

structure PatchContext (World PathUri : Type) where
  fs : ExecutorFileSystem World PathUri
  paths : PathOps PathUri
  options : ApplyPatchOptions
  cwd : PathUri

abbrev PatchProgram (World PathUri : Type) := Program (PatchRun World PathUri) ApplyPatchError

variable {World PathUri Value : Type}

structure AppliedPatch where
  originalContents : List Char
  newContents : List Char
  deriving DecidableEq

def deriveNewContentsFromChunks (fs : ExecutorFileSystem World PathUri) (paths : PathOps PathUri)
    (follow : Bool) (mode : ApplyPatchFileUpdateMode) (path : PathUri)
    (chunks : List UpdateFileChunk) (world : World) : Except ApplyPatchError AppliedPatch × World :=
  match fs.readFileText follow path world with
  | (.error kind, next) => (.error (.ioError
      ("Failed to read file to update ".toList ++ paths.inferredNativePathString path) kind), next)
  | (.ok originalContents, next) =>
    match deriveNewContents (paths.inferredNativePathString path) chunks mode
        originalContents with
    | .ok newContents => (.ok ⟨originalContents, newContents⟩, next)
    | .error (.computeReplacements text) => (.error (.computeReplacements text), next)
    | .error .panicked => (.error .panicked, next)

/-- One call of the file system. Its failure is a value: the code decides what follows. -/
def call (operation : World → Except ErrorKind Value × World) :
    PatchProgram World PathUri (Except ErrorKind Value) := do
  let run ← get
  modify fun run => { run with world := (operation run.world).2 }
  return (operation run.world).1

def attempt (operation : World → Except ApplyPatchError Value × World) :
    PatchProgram World PathUri Value := do
  let run ← get
  modify fun run => { run with world := (operation run.world).2 }
  match (operation run.world).1 with
  | .ok value => return value
  | .error error => throw error

def mapDelta (change : AppliedPatchDelta PathUri → AppliedPatchDelta PathUri) :
    PatchProgram World PathUri Unit :=
  modify fun run => { run with delta := change run.delta }

def markInexact : PatchProgram World PathUri Unit :=
  mapDelta fun delta => { delta with exact := false }

def pushChange (change : AppliedPatchChange PathUri) : PatchProgram World PathUri Unit :=
  mapDelta fun delta => { delta with changes := delta.changes ++ [change] }

def mapAffected (change : AffectedPaths → AffectedPaths) : PatchProgram World PathUri Unit :=
  modify fun run => { run with affected := change run.affected }

/-- The `try_write!` of the source: a failed write may have modified its target. -/
def tryWrite (result : Except ApplyPatchError Unit) : PatchProgram World PathUri Unit :=
  match result with
  | .ok () => pure ()
  | .error error => do
      markInexact
      throw error

variable (context : PatchContext World PathUri)

variable (path : PathUri)

def PatchContext.native : List Char := context.paths.inferredNativePathString path

def PatchContext.getMetadata (path : PathUri) :
    PatchProgram World PathUri (Except ErrorKind FileMetadata) :=
  call (context.fs.getMetadata context.options.followSymlinks path)

def PatchContext.readFileText (path : PathUri) :
    PatchProgram World PathUri (Except ErrorKind (List Char)) :=
  call (context.fs.readFileText context.options.followSymlinks path)

def PatchContext.derive (chunks : List UpdateFileChunk) : PatchProgram World PathUri AppliedPatch :=
  attempt (deriveNewContentsFromChunks context.fs context.paths context.options.followSymlinks
    context.options.updateFileMode path chunks)

def noteExistingPathDeltaSupport : PatchProgram World PathUri Unit := do
  match ← context.getMetadata path with
  | .ok metadata => if metadata.isFile && !metadata.isSymlink then pure () else markInexact
  | .error .notFound => pure ()
  | .error _ => markInexact

def readOptionalFileTextForDelta : PatchProgram World PathUri (Option (List Char)) := do
  noteExistingPathDeltaSupport context path
  match ← context.readFileText path with
  | .ok content => return some content
  | .error .notFound => return none
  | .error _ => do
      markInexact
      return none

def removeFailureWasSideEffectFree (expectedContent : Option (List Char)) :
    PatchProgram World PathUri Bool :=
  match expectedContent with
  | none => return false
  | some expected => do
      match ← context.readFileText path with
      | .ok content => return decide (content = expected)
      | .error _ => return false

def ensureNotDirectory (failure : List Char) (path : PathUri) : PatchProgram World PathUri Unit := do
  match ← context.getMetadata path with
  | .ok metadata => if metadata.isDirectory then throw (.ioError failure .invalidInput) else pure ()
  | .error kind => throw (.ioError failure kind)

def failedToWrite : List Char :=
  "Failed to write file ".toList ++ context.native path

def writeFile (path : PathUri) (contents : List Char) :
    PatchProgram World PathUri (Except ApplyPatchError Unit) := do
  match ← call (context.fs.writeFile context.options.followSymlinks path contents) with
  | .ok () => return .ok ()
  | .error kind => return .error (.ioError (failedToWrite context path) kind)

def writeFileWithMissingParentRetry (contents : List Char) :
    PatchProgram World PathUri (Except ApplyPatchError Unit) := do
  match ← call (context.fs.writeFile context.options.followSymlinks path contents) with
  | .ok () => return .ok ()
  | .error .notFound =>
    match context.paths.parent path with
    | none => writeFile context path contents
    | some parent => do
        match ← call (context.fs.createDirectory context.options.followSymlinks parent) with
        | .ok () => writeFile context path contents
        | .error kind => return .error (.ioError
            ("Failed to create parent directories for ".toList ++ context.native path) kind)
  | .error kind => return .error (.ioError (failedToWrite context path) kind)

def removeFile (failure : List Char) (path : PathUri) (expectedContent : Option (List Char)) :
    PatchProgram World PathUri Unit := do
  match ← call (context.fs.remove context.options.followSymlinks path) with
  | .ok () => pure ()
  | .error kind => do
      let free ← removeFailureWasSideEffectFree context path expectedContent
      mapDelta fun delta => { delta with exact := delta.exact && free }
      throw (.ioError failure kind)

def resolve (path : PatchPath) : PatchProgram World PathUri PathUri :=
  match context.paths.join context.cwd path with
  | .ok uri => return uri
  | .error text => throw (.pathUri text)

def addHunk (path : PatchPath) (contents : List Char) : PatchProgram World PathUri Unit := do
  let uri ← resolve context path
  let overwrittenContent ← readOptionalFileTextForDelta context uri
  tryWrite (← writeFileWithMissingParentRetry context uri contents)
  pushChange ⟨uri, .add contents overwrittenContent⟩
  mapAffected fun affected => { affected with added := affected.added ++ [path] }

def deleteHunk (path : PatchPath) : PatchProgram World PathUri Unit := do
  let uri ← resolve context path
  let failure := "Failed to delete file ".toList ++ context.native uri
  noteExistingPathDeltaSupport context uri
  let read ← context.readFileText uri
  let deletedContent := read.toOption
  if deletedContent = none then markInexact
  ensureNotDirectory context failure uri
  removeFile context failure uri deletedContent
  match deletedContent with
  | some content => pushChange ⟨uri, .delete content⟩
  | none => pure ()
  mapAffected fun affected => { affected with deleted := affected.deleted ++ [path] }

structure WrittenMove (PathUri : Type) where
  patch : AppliedPatch
  destUri : PathUri
  overwrittenMoveContent : Option (List Char)
  destWriteChangeIndex : Nat

def writeDestination (uri : PathUri) (chunks : List UpdateFileChunk) (dest : PatchPath) :
    PatchProgram World PathUri (WrittenMove PathUri) := do
  noteExistingPathDeltaSupport context uri
  let patch ← context.derive uri chunks
  let destUri ← resolve context dest
  let overwrittenMoveContent ← readOptionalFileTextForDelta context destUri
  tryWrite (← writeFileWithMissingParentRetry context destUri patch.newContents)
  let run ← get
  pushChange ⟨destUri, .add patch.newContents overwrittenMoveContent⟩
  return ⟨patch, destUri, overwrittenMoveContent, run.delta.changes.length⟩

def failedToRemoveOriginal (uri : PathUri) : List Char :=
  "Failed to remove original ".toList ++ context.native uri

def moveHunk (path : PatchPath) (chunks : List UpdateFileChunk) (dest : PatchPath) :
    PatchProgram World PathUri Unit := do
  let uri ← resolve context path
  let written ← writeDestination context uri chunks dest
  ensureNotDirectory context (failedToRemoveOriginal context uri) uri
  removeFile context (failedToRemoveOriginal context uri) uri (some written.patch.originalContents)
  mapDelta fun delta => { delta with
    changes := delta.changes.set written.destWriteChangeIndex ⟨uri, .update (some written.destUri)
      written.patch.originalContents written.overwrittenMoveContent written.patch.newContents⟩ }
  -- the affected path of a move is its destination
  mapAffected fun affected => { affected with modified := affected.modified ++ [dest] }

def updateHunk (path : PatchPath) (chunks : List UpdateFileChunk) :
    PatchProgram World PathUri Unit := do
  let uri ← resolve context path
  noteExistingPathDeltaSupport context uri
  let patch ← context.derive uri chunks
  tryWrite (← writeFile context uri patch.newContents)
  pushChange ⟨uri, .update none patch.originalContents none patch.newContents⟩
  mapAffected fun affected => { affected with modified := affected.modified ++ [path] }

def applyHunk : Hunk → PatchProgram World PathUri Unit
  | .addFile path contents => addHunk context path contents
  | .deleteFile path => deleteHunk context path
  | .updateFile path none chunks => updateHunk context path chunks
  | .updateFile path (some dest) chunks => moveHunk context path chunks dest

def applyEach : List Hunk → PatchProgram World PathUri Unit
  | [] => pure ()
  | hunk :: hunks => do
      applyHunk context hunk
      applyEach hunks

def applyHunksToFiles (hunks : List Hunk) : PatchProgram World PathUri AffectedPaths := do
  if hunks = [] then throw (.message "No files were modified.".toList)
  applyEach context hunks
  let run ← get
  return run.affected

section Rules

variable (post : Unit → PatchRun World PathUri → Prop) (fails : PatchRun World PathUri → Prop)
  (run : PatchRun World PathUri)

@[simp]
theorem wp_call (operation : World → Except ErrorKind Value × World)
    (post : Except ErrorKind Value → PatchRun World PathUri → Prop) :
    wp (call operation) post fails run ↔
      post (operation run.world).1 { run with world := (operation run.world).2 } :=
  Iff.rfl

theorem wp_attempt (operation : World → Except ApplyPatchError Value × World)
    (post : Value → PatchRun World PathUri → Prop) :
    wp (attempt operation) post fails run ↔
      match operation run.world with
      | (.ok value, next) => post value { run with world := next }
      | (.error _, next) => fails { run with world := next } := by
  unfold attempt
  simp only [wp_bind, wp_get, wp_modify]
  rcases operation run.world with ⟨_ | _, next⟩ <;> rfl

@[simp]
theorem wp_mapDelta (change : AppliedPatchDelta PathUri → AppliedPatchDelta PathUri) :
    wp (mapDelta change) post fails run ↔ post () { run with delta := change run.delta } :=
  Iff.rfl

@[simp]
theorem wp_markInexact :
    wp markInexact post fails run ↔
      post () { run with delta := { run.delta with exact := false } } :=
  Iff.rfl

@[simp]
theorem wp_pushChange (change : AppliedPatchChange PathUri) :
    wp (pushChange change) post fails run ↔
      post () { run with delta := { run.delta with changes := run.delta.changes ++ [change] } } :=
  Iff.rfl

@[simp]
theorem wp_mapAffected (change : AffectedPaths → AffectedPaths) :
    wp (mapAffected change) post fails run ↔ post () { run with affected := change run.affected } :=
  Iff.rfl

@[simp]
theorem wp_tryWrite (result : Except ApplyPatchError Unit) :
    wp (tryWrite result) post fails run ↔ (result = .ok () → post () run) ∧
        (result ≠ .ok () → fails { run with delta := { run.delta with exact := false } }) := by
  cases result with
  | ok value =>
    change post () run ↔ _
    simp
  | error error =>
    change fails _ ↔ _
    simp

theorem wp_resolve (path : PatchPath) (post : PathUri → PatchRun World PathUri → Prop) :
    wp (resolve context path) post fails run ↔
      (∀ uri, context.paths.join context.cwd path = .ok uri → post uri run) ∧
        ((∀ uri, context.paths.join context.cwd path ≠ .ok uri) → fails run) := by
  unfold resolve
  cases context.paths.join context.cwd path with
  | ok uri =>
    simp
  | error text =>
    simp

end Rules

end OpenInterpreter.ApplyPatch
