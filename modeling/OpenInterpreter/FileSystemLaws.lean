import Mathlib.Logic.Function.Basic
import OpenInterpreter.ApplyPatch

/-! What the calls of a file system promise, and what each helper of `apply_hunks_to_files`
does under these promises. -/

namespace OpenInterpreter.FileSystemLaws

open PatchParser FileUpdate StateProgram ApplyPatch Function Bool PatchContext

inductive FileContent where
  | text (content : List Char)
  | bytes (raw : List UInt8)
  deriving DecidableEq

abbrev Files (File : Type) := File → Option FileContent

/-- What a world looks like: the files, the file each path leads to, and the paths that are
symbolic links themselves. -/
structure FileView (PathUri File : Type) where
  content : Files File
  locate : PathUri → File
  linked : PathUri → Prop

variable {World PathUri File Value : Type}

structure Touches (path : PathUri) (before after : FileView PathUri File) : Prop where
  locate : after.locate = before.locate
  linked : after.linked = before.linked
  content : ∀ file, file ≠ before.locate path → after.content file = before.content file

/-- What the calls of a file system do and say, with no other writer. A failing write leaves
anything in its target and so does a failing removal; a failing read changes nothing, and a
path is reported as not found only where it leads to no file. Nothing is said about the
removal of a link. -/
structure Lawful (fs : ExecutorFileSystem World PathUri) (follow : Bool)
    (look : World → FileView PathUri File) : Prop where
  metadata_view : ∀ path world, look (fs.getMetadata follow path world).2 = look world
  metadata_file : ∀ path world metadata, (fs.getMetadata follow path world).1 = .ok metadata →
    metadata.isFile = true → metadata.isSymlink = false → ¬ (look world).linked path
  metadata_absent : ∀ path world, (fs.getMetadata follow path world).1 = .error .notFound →
    (look world).content ((look world).locate path) = none
  read_view : ∀ path world, look (fs.readFileText follow path world).2 = look world
  read_text : ∀ path world text, (fs.readFileText follow path world).1 = .ok text →
    (look world).content ((look world).locate path) = some (.text text)
  read_absent : ∀ path world, (fs.readFileText follow path world).1 = .error .notFound →
    (look world).content ((look world).locate path) = none
  directory_view : ∀ path world, look (fs.createDirectory follow path world).2 = look world
  write_touches : ∀ path text world,
    Touches path (look world) (look (fs.writeFile follow path text world).2)
  write_text : ∀ path text world, (fs.writeFile follow path text world).1 = .ok () →
    (look (fs.writeFile follow path text world).2).content ((look world).locate path) =
      some (.text text)
  remove_touches : ∀ path world, ¬ (look world).linked path →
    Touches path (look world) (look (fs.remove follow path world).2)
  remove_absent : ∀ path world, ¬ (look world).linked path →
    (fs.remove follow path world).1 = .ok () →
    (look (fs.remove follow path world).2).content ((look world).locate path) = none

variable {path : PathUri}

theorem Touches.trans {first second third : FileView PathUri File}
    (before : Touches path first second) (after : Touches path second third) :
    Touches path first third := by
  constructor
  · rw [after.locate, before.locate]
  · rw [after.linked, before.linked]
  · intro file other
    rw [after.content file (by rw [before.locate]; exact other), before.content file other]

theorem Touches.content_eq [DecidableEq File] {before after : FileView PathUri File}
    {value : Option FileContent} (touches : Touches path before after)
    (written : after.content (before.locate path) = value) :
    after.content = update before.content (before.locate path) value := by
  funext file
  by_cases same : file = before.locate path
  · rw [same, written, update_self]
  · rw [touches.content file same, update_of_ne same]

theorem derives {fs : ExecutorFileSystem World PathUri} {follow : Bool}
    {look : World → FileView PathUri File} (lawful : Lawful fs follow look)
    (paths : PathOps PathUri) (mode : ApplyPatchFileUpdateMode) (path : PathUri)
    (chunks : List UpdateFileChunk) (world : World) :
    look (deriveNewContentsFromChunks fs paths follow mode path chunks world).2 = look world ∧
      ∀ patch, (deriveNewContentsFromChunks fs paths follow mode path chunks world).1 = .ok patch →
        (look world).content ((look world).locate path) = some (.text patch.originalContents) ∧
          deriveNewContents (paths.inferredNativePathString path) chunks mode
            patch.originalContents = .ok patch.newContents := by
  have view := lawful.read_view path world
  have content := lawful.read_text path world
  revert view content
  unfold deriveNewContentsFromChunks
  rcases fs.readFileText follow path world with ⟨_ | text, next⟩
  · intro view _
    exact ⟨view, fun patch derived => nomatch derived⟩
  · intro view content
    cases derived : deriveNewContents (paths.inferredNativePathString path) chunks mode text with
    | ok newText =>
      simp only [derived]
      refine ⟨view, fun patch done => ?_⟩
      cases done
      exact ⟨content text rfl, derived⟩
    | error failure =>
      cases failure with
      | computeReplacements | panicked =>
        simp only [derived]
        exact ⟨view, fun patch done => nomatch done⟩

section Calls

variable {look : World → FileView PathUri File} {context : PatchContext World PathUri}
  (lawful : Lawful context.fs context.options.followSymlinks look)

/-- A look at a path before it is written: nothing moves, and where the delta stays exact
the path is a plain file or leads to none. -/
structure Noted (look : World → FileView PathUri File) (path : PathUri)
    (start final : PatchRun World PathUri) : Prop where
  view : look final.world = look start.world
  changes : final.delta.changes = start.delta.changes
  exact : final.delta.exact = true → start.delta.exact = true
  plain : final.delta.exact = true → ¬ (look start.world).linked path ∨
    (look start.world).content ((look start.world).locate path) = none

structure Looked (look : World → FileView PathUri File) (start final : PatchRun World PathUri) :
    Prop where
  view : look final.world = look start.world
  delta : final.delta = start.delta

structure Wrote (look : World → FileView PathUri File) (path : PathUri) (text : List Char)
    (start : PatchRun World PathUri) (result : Except ApplyPatchError Unit)
    (final : PatchRun World PathUri) : Prop where
  delta : final.delta = start.delta
  touches : Touches path (look start.world) (look final.world)
  written : result = .ok () →
    (look final.world).content ((look start.world).locate path) = some (.text text)

def Quiet (look : World → FileView PathUri File) (start final : PatchRun World PathUri) : Prop :=
  final.delta.exact = true → look final.world = look start.world ∧
    final.delta.changes = start.delta.changes ∧ start.delta.exact = true

variable {start final : PatchRun World PathUri}

theorem quiet_of_inexact (inexact : final.delta.exact = false) : Quiet look start final := by
  intro exact
  rw [inexact] at exact
  cases exact

theorem Quiet.trans {middle : PatchRun World PathUri} (before : Quiet look start middle)
    (after : Quiet look middle final) : Quiet look start final := by
  intro exact
  obtain ⟨view, changes, exactMiddle⟩ := after exact
  obtain ⟨startView, startChanges, exactStart⟩ := before exactMiddle
  exact ⟨view.trans startView, changes.trans startChanges, exactStart⟩

theorem Noted.quiet (noted : Noted look path start final) : Quiet look start final :=
  fun exact => ⟨noted.view, noted.changes, noted.exact exact⟩

theorem Looked.quiet (looked : Looked look start final) : Quiet look start final := by
  intro exact
  rw [looked.delta] at exact
  exact ⟨looked.view, by rw [looked.delta], exact⟩

structure MoveWritten (look : World → FileView PathUri File)
    (context : PatchContext World PathUri) (uri : PathUri) (chunks : List UpdateFileChunk)
    (dest : PatchPath) (run : PatchRun World PathUri) (written : WrittenMove PathUri)
    (final : PatchRun World PathUri) : Prop where
  changes : final.delta.changes = run.delta.changes ++
    [⟨written.destUri, .add written.patch.newContents written.overwrittenMoveContent⟩]
  index : written.destWriteChangeIndex = run.delta.changes.length
  exact : final.delta.exact = true → run.delta.exact = true
  unlinked : final.delta.exact = true → ¬ (look run.world).linked uri
  original : (look run.world).content ((look run.world).locate uri) =
    some (.text written.patch.originalContents)
  resolved : context.paths.join context.cwd dest = .ok written.destUri
  derived : deriveNewContents (context.native uri) chunks context.options.updateFileMode
    written.patch.originalContents = .ok written.patch.newContents
  overwritten : final.delta.exact = true →
    (look run.world).content ((look run.world).locate written.destUri) =
      written.overwrittenMoveContent.map .text
  touches : Touches written.destUri (look run.world) (look final.world)
  new : (look final.world).content ((look run.world).locate written.destUri) =
    some (.text written.patch.newContents)

include lawful

variable (path : PathUri) (start : PatchRun World PathUri) (fails : PatchRun World PathUri → Prop)

theorem note_spec :
    wp (noteExistingPathDeltaSupport context path) (fun _ final => Noted look path start final)
      fails start := by
  have view := lawful.metadata_view path start.world
  unfold noteExistingPathDeltaSupport getMetadata
  simp only [wp_bind, wp_call]
  cases result : (context.fs.getMetadata context.options.followSymlinks path start.world).1 with
  | ok metadata =>
    dsimp only
    by_cases regular : (metadata.isFile && !metadata.isSymlink) = true
    · rw [if_pos regular]
      simp only [and_eq_true, not_eq_true'] at regular
      have unlinked := lawful.metadata_file path start.world metadata result regular.1 regular.2
      exact ⟨view, rfl, id, fun _ => Or.inl unlinked⟩
    · rw [if_neg regular]
      exact ⟨view, rfl, by simp, by simp⟩
  | error kind =>
    cases kind with
    | notFound =>
      have absent := lawful.metadata_absent path start.world result
      exact ⟨view, rfl, id, fun _ => Or.inr absent⟩
    | invalidInput | invalidData | other => exact ⟨view, rfl, by simp, by simp⟩

theorem readOptional_spec :
    wp (readOptionalFileTextForDelta context path)
      (fun content final => Noted look path start final ∧ (final.delta.exact = true →
        (look start.world).content ((look start.world).locate path) = content.map .text))
      fails start := by
  unfold readOptionalFileTextForDelta readFileText
  simp only [wp_bind]
  apply wp_imp (note_spec lawful path start fails)
  intro _ noted seen
  have view : look (context.fs.readFileText context.options.followSymlinks path noted.world).2 =
      look start.world := (lawful.read_view path noted.world).trans seen.view
  rw [wp_call]
  cases result : (context.fs.readFileText context.options.followSymlinks path noted.world).1 with
  | ok text =>
    have content := lawful.read_text path noted.world text result
    rw [seen.view] at content
    exact ⟨⟨view, seen.changes, seen.exact, seen.plain⟩, fun _ => content⟩
  | error kind =>
    cases kind with
    | notFound =>
      have absent := lawful.read_absent path noted.world result
      rw [seen.view] at absent
      exact ⟨⟨view, seen.changes, seen.exact, seen.plain⟩, fun _ => absent⟩
    | invalidInput | invalidData | other => exact ⟨⟨view, seen.changes, by simp, by simp⟩, by simp⟩

theorem write_spec (text : List Char) (start : PatchRun World PathUri)
    (fails : PatchRun World PathUri → Prop) :
    wp (writeFile context path text) (Wrote look path text start) fails start := by
  have touches := lawful.write_touches path text start.world
  unfold writeFile
  simp only [wp_bind, wp_call]
  cases result : (context.fs.writeFile context.options.followSymlinks path text start.world).1 with
  | ok done => exact ⟨rfl, touches, fun _ => lawful.write_text path text start.world result⟩
  | error kind => exact ⟨rfl, touches, by simp⟩

theorem writeRetry_spec (text : List Char) (start : PatchRun World PathUri)
    (fails : PatchRun World PathUri → Prop) :
    wp (writeFileWithMissingParentRetry context path text) (Wrote look path text start) fails
      start := by
  have touches := lawful.write_touches path text start.world
  -- a second attempt, from a run that differs at the path only
  have again (middle : PatchRun World PathUri) (delta : middle.delta = start.delta)
      (before : Touches path (look start.world) (look middle.world)) :
      wp (writeFile context path text) (Wrote look path text start) fails middle := by
    apply wp_imp (write_spec lawful path text middle fails)
    intro result final wrote
    constructor
    · rw [wrote.delta, delta]
    · exact before.trans wrote.touches
    · intro done
      rw [← before.locate]
      exact wrote.written done
  unfold writeFileWithMissingParentRetry
  simp only [wp_bind, wp_call]
  cases result : (context.fs.writeFile context.options.followSymlinks path text start.world).1 with
  | ok done => exact ⟨rfl, touches, fun _ => lawful.write_text path text start.world result⟩
  | error kind =>
    cases kind with
    | notFound =>
      cases context.paths.parent path with
      | none => exact again _ rfl touches
      | some parent =>
        rw [wp_bind, wp_call]
        have view := lawful.directory_view parent
        split
        · apply again
          · rfl
          · rw [view]
            exact touches
        · refine ⟨rfl, ?_, by simp⟩
          rw [view]
          exact touches
    | invalidInput | invalidData | other => exact ⟨rfl, touches, by simp⟩

theorem ensureNotDirectory_spec (failure : List Char) (path : PathUri)
    (start : PatchRun World PathUri) :
    wp (ensureNotDirectory context failure path) (fun _ final => Looked look start final)
      (fun final => Looked look start final) start := by
  have view := lawful.metadata_view path start.world
  unfold ensureNotDirectory getMetadata
  simp only [wp_bind, wp_call]
  split
  · split
    · exact ⟨view, rfl⟩
    · exact ⟨view, rfl⟩
  · exact ⟨view, rfl⟩

theorem derive_spec (chunks : List UpdateFileChunk) (start : PatchRun World PathUri) :
    wp (context.derive path chunks)
      (fun patch final => Looked look start final ∧
        (look start.world).content ((look start.world).locate path) =
          some (.text patch.originalContents) ∧
        deriveNewContents (context.native path) chunks context.options.updateFileMode
          patch.originalContents = .ok patch.newContents)
      (fun final => Looked look start final) start := by
  have derived := derives lawful context.paths context.options.updateFileMode path chunks
    start.world
  unfold derive
  rw [wp_attempt]
  revert derived
  rcases deriveNewContentsFromChunks context.fs context.paths context.options.followSymlinks
    context.options.updateFileMode path chunks start.world with ⟨_ | patch, next⟩
  · exact fun derived => ⟨derived.1, rfl⟩
  · exact fun derived => ⟨⟨derived.1, rfl⟩, derived.2 patch rfl⟩

theorem remove_spec (failure : List Char) (path : PathUri) (expected : Option (List Char))
    (start : PatchRun World PathUri) :
    wp (removeFile context failure path expected)
      (fun _ final => final.delta = start.delta ∧ (¬ (look start.world).linked path →
        Touches path (look start.world) (look final.world) ∧
          (look final.world).content ((look start.world).locate path) = none))
      (fun final => final.delta.changes = start.delta.changes ∧ (final.delta.exact = true →
        start.delta.exact = true ∧ (¬ (look start.world).linked path →
          Touches path (look start.world) (look final.world) ∧ ∃ text, expected = some text ∧
            (look final.world).content ((look start.world).locate path) = some (.text text))))
      start := by
  unfold removeFile
  simp only [wp_bind, wp_call]
  cases result : (context.fs.remove context.options.followSymlinks path start.world).1 with
  | ok done =>
    refine ⟨rfl, fun unlinked => ?_⟩
    exact ⟨lawful.remove_touches path start.world unlinked,
      lawful.remove_absent path start.world unlinked result⟩
  | error kind =>
    unfold removeFailureWasSideEffectFree readFileText
    cases expected with
    | none =>
      simp only [wp_bind, wp_pure, wp_mapDelta, wp_throw]
      exact ⟨trivial, by simp⟩
    | some text =>
      simp only [wp_bind, wp_call]
      have view := lawful.read_view path
      cases again : (context.fs.readFileText context.options.followSymlinks path
          (context.fs.remove context.options.followSymlinks path start.world).2).1 with
      | error kind =>
        simp only [wp_pure, wp_mapDelta, wp_throw]
        exact ⟨trivial, by simp⟩
      | ok content =>
        simp only [wp_pure, wp_mapDelta, wp_throw]
        refine ⟨trivial, fun exact => ?_⟩
        simp only [and_eq_true, decide_eq_true_eq] at exact
        refine ⟨exact.1, fun unlinked => ?_⟩
        have touches := lawful.remove_touches path start.world unlinked
        have read := lawful.read_text path _ content again
        rw [touches.locate, exact.2] at read
        rw [view]
        exact ⟨touches, text, rfl, read⟩

theorem writeDestination_spec (uri : PathUri) (chunks : List UpdateFileChunk) (dest : PatchPath)
    (run : PatchRun World PathUri) :
    wp (writeDestination context uri chunks dest) (MoveWritten look context uri chunks dest run)
      (Quiet look run) run := by
  unfold writeDestination
  simp only [wp_bind, wp_resolve]
  apply wp_imp (note_spec lawful uri run (Quiet look run))
  intro _ noted seen
  apply wp_mono (derive_spec lawful uri chunks noted) _
    (fun _ looked => seen.quiet.trans looked.quiet)
  rintro patch derived ⟨looked, held, changed⟩
  refine ⟨fun destUri joining => ?_, fun _ => seen.quiet.trans looked.quiet⟩
  apply wp_imp (readOptional_spec lawful destUri derived (Quiet look run))
  rintro overwritten found ⟨destSeen, destHeld⟩
  apply wp_imp (writeRetry_spec lawful destUri patch.newContents found (Quiet look run))
  intro result written wrote
  simp only [wp_tryWrite, wp_pushChange]
  refine ⟨fun done => ?_, fun _ => quiet_of_inexact rfl⟩
  have viewDerived : look derived.world = look run.world := looked.view.trans seen.view
  have viewFound : look found.world = look run.world := destSeen.view.trans viewDerived
  have changes : written.delta.changes = run.delta.changes := by
    rw [wrote.delta, destSeen.changes, looked.delta, seen.changes]
  have exactNoted : written.delta.exact = true → noted.delta.exact = true := by
    intro exact
    rw [wrote.delta] at exact
    rw [← looked.delta]
    exact destSeen.exact exact
  rw [seen.view] at held
  constructor
  · rw [changes]
  · rw [changes]
  · exact fun exact => seen.exact (exactNoted exact)
  · intro exact
    rcases seen.plain (exactNoted exact) with unlinked | absent
    · exact unlinked
    · rw [absent] at held
      cases held
  · exact held
  · exact joining
  · exact changed
  · intro exact
    rw [← viewDerived]
    exact destHeld (by rw [← wrote.delta]; exact exact)
  · rw [← viewFound]
    exact wrote.touches
  · rw [← viewFound]
    exact wrote.written done

end Calls

end OpenInterpreter.FileSystemLaws
