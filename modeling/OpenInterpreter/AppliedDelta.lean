import OpenInterpreter.FileSystemLaws

/-! The delta of an applied patch against the files on disk, whatever calls of the file
system fail on the way. -/

namespace OpenInterpreter.AppliedDelta

open PatchParser FileUpdate StateProgram ApplyPatch FileSystemLaws List Function

variable {World PathUri File Value : Type}

section Replay

variable [DecidableEq File] (locate : PathUri → File)

variable (files : Files File)

def replay (change : AppliedPatchChange PathUri) : Files File :=
  match change.change with
  | .add content _ => update files (locate change.path) (some (.text content))
  | .delete _ => update files (locate change.path) none
  | .update none _ _ newContent =>
    update files (locate change.path) (some (.text newContent))
  | .update (some dest) _ _ newContent =>
    update (update files (locate dest) (some (.text newContent)))
      (locate change.path) none

def HoldsBefore (change : AppliedPatchChange PathUri) : Prop :=
  match change.change with
  | .add _ overwritten => files (locate change.path) = overwritten.map .text
  | .delete content => files (locate change.path) = some (.text content)
  | .update none oldContent _ _ => files (locate change.path) = some (.text oldContent)
  | .update (some dest) oldContent overwritten _ =>
    files (locate change.path) = some (.text oldContent) ∧
      files (locate dest) = overwritten.map .text

variable (changes : List (AppliedPatchChange PathUri))

def replayAll : Files File :=
  changes.foldl (replay locate) files

def Recorded (files : Files File) : List (AppliedPatchChange PathUri) → Prop
  | [] => True
  | change :: changes =>
    HoldsBefore locate files change ∧ Recorded (replay locate files change) changes

theorem replayAll_concat (change : AppliedPatchChange PathUri) :
    replayAll locate files (changes ++ [change]) =
      replay locate (replayAll locate files changes) change := by
  rw [replayAll, foldl_append]
  rfl

theorem recorded_concat (change : AppliedPatchChange PathUri) :
    Recorded locate files (changes ++ [change]) ↔ Recorded locate files changes ∧
        HoldsBefore locate (replayAll locate files changes) change := by
  induction changes generalizing files with
  | nil => simp [Recorded, replayAll]
  | cons first changes ih =>
    simp only [cons_append, Recorded, ih, and_assoc]
    rfl

end Replay

variable [DecidableEq File] (look : World → FileView PathUri File)

variable (start : FileView PathUri File)

/-- An exact delta, replayed on the first files, gives the files of the run, and records
what it replaced. -/
def Replayable (run : PatchRun World PathUri) : Prop :=
  run.delta.exact = true →
    replayAll start.locate start.content run.delta.changes = (look run.world).content ∧
      Recorded start.locate start.content run.delta.changes

/-- The invariant of a run: while the delta is exact, it is replayable and no path has
come to lead elsewhere. -/
structure Faithful (changes : List (AppliedPatchChange PathUri))
    (view : FileView PathUri File) : Prop where
  locate : view.locate = start.locate
  replayed : replayAll start.locate start.content changes = view.content
  recorded : Recorded start.locate start.content changes

def Consistent (run : PatchRun World PathUri) : Prop :=
  run.delta.exact = true → Faithful start run.delta.changes (look run.world)

variable {look} {start : FileView PathUri File} {run : PatchRun World PathUri}

theorem Consistent.replayable
    (consistent : Consistent look start run) : Replayable look start run := by
  intro exact
  exact ⟨(consistent exact).replayed, (consistent exact).recorded⟩

theorem consistent_of_inexact (inexact : run.delta.exact = false) : Consistent look start run := by
  intro exact
  rw [inexact] at exact
  cases exact

theorem Faithful.push {before after : FileView PathUri File}
    {changes : List (AppliedPatchChange PathUri)} {change : AppliedPatchChange PathUri}
    (faithful : Faithful start changes before)
    (holds : HoldsBefore before.locate before.content change)
    (located : after.locate = before.locate)
    (replayed : after.content = replay before.locate before.content change) :
    Faithful start (changes ++ [change]) after := by
  constructor
  · rw [located, faithful.locate]
  · rw [replayAll_concat, faithful.replayed, replayed, faithful.locate]
  · rw [recorded_concat, faithful.replayed]
    rw [faithful.locate] at holds
    exact ⟨faithful.recorded, holds⟩

variable {context : PatchContext World PathUri}

section Hunks

variable (lawful : Lawful context.fs context.options.followSymlinks look)

theorem Consistent.of_quiet {final : PatchRun World PathUri}
    (consistent : Consistent look start run) (quiet : Quiet look run final) :
    Consistent look start final := by
  intro exact
  obtain ⟨view, changes, before⟩ := quiet exact
  rw [changes, view]
  exact consistent before

variable {chunks : List UpdateFileChunk}

theorem Consistent.of_written {uri : PathUri} {dest : PatchPath} {written : WrittenMove PathUri}
    {middle : PatchRun World PathUri} (consistent : Consistent look start run)
    (moved : MoveWritten look context uri chunks dest run written middle) :
    Consistent look start middle := by
  intro exact
  rw [moved.changes]
  apply (consistent (moved.exact exact)).push
  · exact moved.overwritten exact
  · exact moved.touches.locate
  · exact moved.touches.content_eq moved.new

theorem removeFile_read (failure : List Char) (path : PathUri) (expected : List Char)
    (checked : PatchRun World PathUri) :
    wp (removeFile context failure path (some expected)) (fun _ _ => True)
      (fun final => final.delta.exact = true → ∃ kind,
        (context.fs.remove context.options.followSymlinks path checked.world).1 = .error kind ∧
        (context.fs.readFileText context.options.followSymlinks path
          (context.fs.remove context.options.followSymlinks path checked.world).2).1 =
            .ok expected) checked := by
  unfold removeFile removeFailureWasSideEffectFree PatchContext.readFileText
  simp only [wp_bind, wp_call]
  split
  · trivial
  · rename_i kind failed
    simp only [wp_bind, wp_call]
    cases again : (context.fs.readFileText context.options.followSymlinks path
        (context.fs.remove context.options.followSymlinks path checked.world).2).1 with
    | error second =>
      simp
    | ok content =>
      intro exact
      simp only [Bool.and_eq_true, decide_eq_true_eq] at exact
      rw [exact.2]
      exact ⟨kind, failed, rfl⟩

/-- The removal that ends a move onto the very file it came from fails and puts the
original text back, while the delta counts on the new one. -/
structure PutsBack (look : World → FileView PathUri File) (context : PatchContext World PathUri)
    (uri : PathUri) (written : WrittenMove PathUri) (checked : PatchRun World PathUri) : Prop where
  exact : checked.delta.exact = true
  same : (look checked.world).locate written.destUri = (look checked.world).locate uri
  changed : written.patch.originalContents ≠ written.patch.newContents
  failed : ∃ kind,
    (context.fs.remove context.options.followSymlinks uri checked.world).1 = .error kind
  original : (context.fs.readFileText context.options.followSymlinks uri
    (context.fs.remove context.options.followSymlinks uri checked.world).2).1 =
      .ok written.patch.originalContents

def reachRemoval (context : PatchContext World PathUri) (path : PatchPath)
    (chunks : List UpdateFileChunk) (dest : PatchPath) :
    PatchProgram World PathUri (PathUri × WrittenMove PathUri) := do
  let uri ← resolve context path
  let written ← writeDestination context uri chunks dest
  ensureNotDirectory context (failedToRemoveOriginal context uri) uri
  return (uri, written)

include lawful

variable (path : PatchPath)

theorem addHunk_consistent (contents : List Char) (consistent : Consistent look start run) :
    wp (addHunk context path contents) (fun _ => Consistent look start) (Consistent look start)
      run := by
  unfold addHunk
  simp only [wp_bind, wp_resolve]
  refine ⟨fun uri _ => ?_, fun _ => consistent⟩
  apply wp_imp (readOptional_spec lawful uri run (Consistent look start))
  rintro overwritten noted ⟨seen, held⟩
  apply wp_imp (writeRetry_spec lawful uri contents noted (Consistent look start))
  intro result written wrote
  simp only [wp_tryWrite, wp_pushChange]
  refine ⟨fun done => ?_, fun _ => consistent_of_inexact rfl⟩
  intro exact
  have exactNoted : noted.delta.exact = true := by
    rw [← wrote.delta]
    exact exact
  have faithful := consistent.of_quiet seen.quiet exactNoted
  rw [wrote.delta]
  apply faithful.push
  · rw [seen.view]
    exact held exactNoted
  · exact wrote.touches.locate
  · exact wrote.touches.content_eq (wrote.written done)

theorem updateHunk_consistent (chunks : List UpdateFileChunk)
    (consistent : Consistent look start run) :
    wp (updateHunk context path chunks) (fun _ => Consistent look start) (Consistent look start)
      run := by
  unfold updateHunk
  simp only [wp_bind, wp_resolve]
  refine ⟨fun uri _ => ?_, fun _ => consistent⟩
  apply wp_imp (note_spec lawful uri run (Consistent look start))
  intro _ noted seen
  have before := consistent.of_quiet seen.quiet
  apply wp_mono (derive_spec lawful uri chunks noted) _ (fun _ looked => before.of_quiet looked.quiet)
  rintro patch derived ⟨looked, held, -⟩
  apply wp_imp (write_spec lawful uri patch.newContents derived (Consistent look start))
  intro result written wrote
  simp only [wp_tryWrite, wp_pushChange]
  refine ⟨fun done => ?_, fun _ => consistent_of_inexact rfl⟩
  intro exact
  have faithful := before.of_quiet looked.quiet (by rw [← wrote.delta]; exact exact)
  rw [wrote.delta]
  apply faithful.push
  · rw [looked.view]
    exact held
  · exact wrote.touches.locate
  · exact wrote.touches.content_eq (wrote.written done)

variable (consistent : Consistent look start run)
include consistent

theorem deleteHunk_consistent :
    wp (deleteHunk context path) (fun _ => Consistent look start) (Consistent look start)
      run := by
  unfold deleteHunk PatchContext.readFileText
  simp only [wp_bind, wp_resolve, wp_call]
  refine ⟨fun uri _ => ?_, fun _ => consistent⟩
  apply wp_imp (note_spec lawful uri run (Consistent look start))
  intro _ noted seen
  have before := consistent.of_quiet seen.quiet
  have view := lawful.read_view uri noted.world
  cases result : (context.fs.readFileText context.options.followSymlinks uri noted.world).1 with
  | error kind =>
    simp only [Except.toOption, if_true, wp_bind]
    apply wp_mono (ensureNotDirectory_spec lawful _ uri _) _
      (fun final looked => consistent_of_inexact (by rw [looked.delta]))
    intro _ checked looked
    have inexact : checked.delta.exact = false := by rw [looked.delta]
    apply wp_mono (remove_spec lawful _ uri none checked)
    · rintro _ removed ⟨delta, -⟩
      apply consistent_of_inexact
      rw [← inexact, ← delta]
    · rintro final ⟨-, kept⟩ exact
      have contradiction := (kept exact).1
      rw [inexact] at contradiction
      cases contradiction
  | ok content =>
    have held := lawful.read_text uri noted.world content result
    simp only [Except.toOption, reduceCtorEq, if_false, wp_bind]
    have read : Consistent look start { noted with world :=
        (context.fs.readFileText context.options.followSymlinks uri noted.world).2 } :=
      before.of_quiet (Looked.quiet ⟨view, rfl⟩)
    apply wp_mono (ensureNotDirectory_spec lawful _ uri _) _
      (fun _ looked => read.of_quiet looked.quiet)
    intro _ checked looked
    have sameView : look checked.world = look noted.world := looked.view.trans view
    have plain : checked.delta.exact = true → ¬ (look checked.world).linked uri := by
      intro exact
      rw [looked.delta] at exact
      rw [sameView, seen.view]
      rcases seen.plain exact with unlinked | absent
      · exact unlinked
      · rw [seen.view, absent] at held
        cases held
    rw [← sameView] at held
    have ready := read.of_quiet looked.quiet
    apply wp_mono (remove_spec lawful _ uri (some content) checked)
    · rintro _ removed ⟨delta, gone⟩
      simp only [wp_pushChange]
      intro exact
      have exactChecked : checked.delta.exact = true := by
        rw [← delta]
        exact exact
      obtain ⟨touches, absent⟩ := gone (plain exactChecked)
      rw [delta]
      apply (ready exactChecked).push
      · exact held
      · exact touches.locate
      · exact touches.content_eq absent
    · rintro final ⟨changes, kept⟩ exact
      obtain ⟨exactChecked, left⟩ := kept exact
      obtain ⟨touches, text, expected, back⟩ := left (plain exactChecked)
      cases expected
      have faithful := ready exactChecked
      rw [changes]
      constructor
      · rw [touches.locate, faithful.locate]
      · rw [faithful.replayed, touches.content_eq (back.trans held.symm), update_eq_self]
      · exact faithful.recorded

theorem moveHunk_consistent {path dest : PatchPath}
    (undisturbed : wp (reachRemoval context path chunks dest)
      (fun reached checked => ¬ PutsBack look context reached.1 reached.2 checked)
      (fun _ => True) run) :
    wp (moveHunk context path chunks dest) (fun _ => Consistent look start)
      (Consistent look start) run := by
  unfold reachRemoval at undisturbed
  unfold moveHunk
  simp only [wp_bind, wp_resolve] at undisturbed ⊢
  refine ⟨fun uri joined => ?_, fun _ => consistent⟩
  apply wp_mono (wp_and (writeDestination_spec lawful uri chunks dest run)
    (undisturbed.1 uri joined)) _ (fun _ failed => consistent.of_quiet failed.1)
  rintro written middle ⟨moved, rest⟩
  have middleConsistent := consistent.of_written moved
  apply wp_mono (wp_and (ensureNotDirectory_spec lawful (failedToRemoveOriginal context uri) uri
    middle) rest) _ (fun _ failed => middleConsistent.of_quiet failed.1.quiet)
  rintro _ checked ⟨looked, safe⟩
  have ready := middleConsistent.of_quiet looked.quiet
  have exactMiddle (exact : checked.delta.exact = true) : middle.delta.exact = true := by
    rw [← looked.delta]
    exact exact
  have plain : checked.delta.exact = true → ¬ (look checked.world).linked uri := by
    intro exact
    rw [looked.view, moved.touches.linked]
    exact moved.unlinked (exactMiddle exact)
  have located : (look checked.world).locate = (look run.world).locate := by
    rw [looked.view, moved.touches.locate]
  apply wp_mono (wp_and (remove_spec lawful (failedToRemoveOriginal context uri) uri
    (some written.patch.originalContents) checked)
    (removeFile_read (failedToRemoveOriginal context uri) uri written.patch.originalContents
      checked))
  · rintro _ removed ⟨⟨delta, gone⟩, -⟩
    simp only [wp_mapDelta]
    intro exact
    have exactChecked : checked.delta.exact = true := by
      rw [← delta]
      exact exact
    have exactFinal := exactMiddle exactChecked
    obtain ⟨touches, absent⟩ := gone (plain exactChecked)
    have replaced : removed.delta.changes.set written.destWriteChangeIndex
        ⟨uri, .update (some written.destUri) written.patch.originalContents
          written.overwrittenMoveContent written.patch.newContents⟩ =
        run.delta.changes ++ [⟨uri, .update (some written.destUri) written.patch.originalContents
          written.overwrittenMoveContent written.patch.newContents⟩] := by
      rw [delta, looked.delta, moved.changes, moved.index]
      simp
    rw [replaced]
    apply (consistent (moved.exact exactFinal)).push
    · exact ⟨moved.original, moved.overwritten exactFinal⟩
    · rw [touches.locate, located]
    · rw [touches.content_eq absent, located, looked.view, moved.touches.content_eq moved.new]
      rfl
  · rintro final ⟨⟨changes, kept⟩, read⟩ exact
    obtain ⟨exactChecked, left⟩ := kept exact
    obtain ⟨touches, text, expected, back⟩ := left (plain exactChecked)
    cases expected
    have faithful := ready exactChecked
    -- the file of the source holds what it held before the removal
    have unchanged : (look checked.world).content ((look checked.world).locate uri) =
        some (.text written.patch.originalContents) := by
      rw [located, looked.view]
      by_cases same : (look run.world).locate uri = (look run.world).locate written.destUri
      · rw [same, moved.new]
        by_contra changed
        obtain ⟨kind, failed, original⟩ := read exact
        apply safe
        constructor
        · exact exactChecked
        · rw [located, same]
        · exact fun equal => changed (by rw [equal])
        · exact ⟨kind, failed⟩
        · exact original
      · rw [moved.touches.content _ same, moved.original]
    rw [changes]
    constructor
    · rw [touches.locate, faithful.locate]
    · rw [faithful.replayed, touches.content_eq (back.trans unchanged.symm), update_eq_self]
    · exact faithful.recorded

theorem moveHunk_undisturbed {path dest : PatchPath}
    (replayable : wp (moveHunk context path chunks dest) (fun _ _ => True)
      (Replayable look start) run) :
    wp (reachRemoval context path chunks dest)
      (fun reached checked => ¬ PutsBack look context reached.1 reached.2 checked)
      (fun _ => True) run := by
  unfold moveHunk at replayable
  unfold reachRemoval
  simp only [wp_bind, wp_resolve] at replayable ⊢
  refine ⟨fun uri joined => ?_, fun _ => trivial⟩
  apply wp_mono (wp_and (writeDestination_spec lawful uri chunks dest run)
    (replayable.1 uri joined)) _ (fun _ _ => trivial)
  rintro written middle ⟨moved, rest⟩
  apply wp_mono (wp_and (ensureNotDirectory_spec lawful (failedToRemoveOriginal context uri) uri
    middle) rest) _ (fun _ _ => trivial)
  rintro _ checked ⟨looked, outcome⟩ puts
  obtain ⟨kind, failed⟩ := puts.failed
  have faithful := (consistent.of_written moved).of_quiet looked.quiet puts.exact
  have located : (look checked.world).locate = (look run.world).locate := by
    rw [looked.view, moved.touches.locate]
  have unlinked : ¬ (look checked.world).linked uri := by
    rw [looked.view, moved.touches.linked]
    exact moved.unlinked (by rw [← looked.delta]; exact puts.exact)
  have touches := lawful.remove_touches uri checked.world unlinked
  have view := lawful.read_view uri
  have back := lawful.read_text uri _ _ puts.original
  unfold removeFile removeFailureWasSideEffectFree PatchContext.readFileText at outcome
  simp only [wp_bind, wp_call, failed, puts.original] at outcome
  obtain ⟨replayed, -⟩ := outcome (by simp [puts.exact])
  have content : (look checked.world).content =
      (look (context.fs.remove context.options.followSymlinks uri checked.world).2).content := by
    rw [← faithful.replayed, ← view]
    exact replayed
  have original : (look checked.world).content ((look checked.world).locate uri) =
      some (.text written.patch.originalContents) := by
    rw [content, ← touches.locate]
    exact back
  have new : (look checked.world).content ((look checked.world).locate uri) =
      some (.text written.patch.newContents) := by
    rw [← puts.same, located, looked.view]
    exact moved.new
  rw [original] at new
  apply puts.changed
  injection new with same
  injection same

end Hunks

def Undisturbed (look : World → FileView PathUri File) (context : PatchContext World PathUri) :
    Hunk → PatchRun World PathUri → Prop
  | .updateFile path (some dest) chunks, run =>
    wp (reachRemoval context path chunks dest)
      (fun reached checked => ¬ PutsBack look context reached.1 reached.2 checked)
      (fun _ => True) run
  | _, _ => True

def UndisturbedRun (look : World → FileView PathUri File) (context : PatchContext World PathUri) :
    List Hunk → PatchRun World PathUri → Prop
  | [], _ => True
  | hunk :: hunks, run =>
    Undisturbed look context hunk run ∧
      wp (applyHunk context hunk) (fun _ next => UndisturbedRun look context hunks next)
        (fun _ => True) run

section Runs

variable (lawful : Lawful context.fs context.options.followSymlinks look)

include lawful

variable (consistent : Consistent look start run)
include consistent

theorem applyHunk_consistent {hunk : Hunk}
    (undisturbed : Undisturbed look context hunk run) :
    wp (applyHunk context hunk) (fun _ => Consistent look start) (Consistent look start) run := by
  cases hunk with
  | addFile path contents => exact addHunk_consistent lawful path contents consistent
  | deleteFile path => exact deleteHunk_consistent lawful path consistent
  | updateFile path movePath chunks =>
    cases movePath with
    | none => exact updateHunk_consistent lawful path chunks consistent
    | some dest => exact moveHunk_consistent lawful consistent undisturbed

theorem undisturbed_of_replayable (hunk : Hunk)
    (replayable : wp (applyHunk context hunk) (fun _ _ => True) (Replayable look start) run) :
    Undisturbed look context hunk run := by
  cases hunk with
  | addFile | deleteFile => trivial
  | updateFile path movePath chunks =>
    cases movePath with
    | none => trivial
    | some dest => exact moveHunk_undisturbed lawful consistent replayable

theorem applyEach_replayable_iff (hunks : List Hunk) :
    wp (applyEach context hunks) (fun _ => Replayable look start) (Replayable look start) run ↔
      UndisturbedRun look context hunks run := by
  induction hunks generalizing run with
  | nil => exact ⟨fun _ => trivial, fun _ => consistent.replayable⟩
  | cons hunk hunks ih =>
    unfold applyEach UndisturbedRun
    rw [wp_bind]
    constructor
    · intro replayable
      have undisturbed := undisturbed_of_replayable lawful consistent hunk
        (wp_mono replayable (fun _ _ _ => trivial) (fun _ failed => failed))
      refine ⟨undisturbed, ?_⟩
      apply wp_mono (wp_and (applyHunk_consistent lawful consistent undisturbed) replayable)
      · rintro _ next ⟨kept, rest⟩
        exact (ih kept).mp rest
      · exact fun _ _ => trivial
    · rintro ⟨undisturbed, rest⟩
      apply wp_mono (wp_and (applyHunk_consistent lawful consistent undisturbed) rest)
      · rintro _ next ⟨kept, later⟩
        exact (ih kept).mpr later
      · exact fun _ failed => failed.1.replayable

end Runs

def patchStart (world : World) : PatchRun World PathUri := ⟨world, .empty, ⟨[], [], []⟩⟩

theorem patchStart_consistent (world : World) :
    Consistent look (look world) (patchStart world) := by
  intro _
  exact ⟨rfl, rfl, trivial⟩

/-- Whatever calls fail, an exact delta replays to the files on disk and records what it
replaced, unless a move onto its own source meets a removal that fails and puts the
original text back. -/
theorem exact_delta_replayable_iff (look : World → FileView PathUri File)
    (context : PatchContext World PathUri) (hunks : List Hunk) (world : World)
    (lawful : Lawful context.fs context.options.followSymlinks look) :
    Replayable look (look world)
        (runFrom (applyHunksToFiles context hunks) (patchStart world)).2 ↔
      UndisturbedRun look context hunks (patchStart world) := by
  have begun : Consistent look (look world) (patchStart world) := patchStart_consistent world
  rw [← wp_same (applyHunksToFiles context hunks) (Replayable look (look world)),
    ← applyEach_replayable_iff lawful begun hunks]
  unfold applyHunksToFiles
  cases hunks with
  | nil => exact ⟨fun _ => begun.replayable, fun _ => begun.replayable⟩
  | cons hunk hunks => simp only [reduceCtorEq, if_false, wp_bind, wp_get, wp_pure]

structure ScriptedWorld where
  files : List Char → Option (List Char)
  removal : Option (Option (List Char))

def scripted : ExecutorFileSystem ScriptedWorld (List Char) where
  getMetadata _ path world :=
    ((world.files path).elim (.error .notFound) (fun _ => .ok ⟨false, true, false⟩), world)
  readFileText _ path world := ((world.files path).elim (.error .notFound) .ok, world)
  writeFile _ path text world :=
    (.ok (), { world with files := update world.files path (some text) })
  createDirectory _ _ world := (.ok (), world)
  remove _ path world :=
    match world.removal with
    | none => (.ok (), { world with files := update world.files path none })
    | some left => (.error .other, { world with files := update world.files path left })

def scriptedView (world : ScriptedWorld) : FileView (List Char) (List Char) where
  content path := (world.files path).map .text
  locate := id
  linked _ := False

theorem scripted_update (world : ScriptedWorld) (path : List Char) (left : Option (List Char)) :
    Touches path (scriptedView world)
        (scriptedView { world with files := update world.files path left }) ∧
      (scriptedView { world with files := update world.files path left }).content path =
        left.map .text := by
  constructor
  · refine ⟨rfl, rfl, fun file different => ?_⟩
    change (update world.files path left file).map _ = _
    rw [update_of_ne (show file ≠ path from different)]
    rfl
  · change (update world.files path left path).map _ = _
    rw [update_self]

theorem scripted_read {world : ScriptedWorld} {path : List Char}
    {found : List Char → Except ErrorKind Value} :
    (world.files path).elim (.error .notFound) found = .error .notFound →
      (∀ text, found text ≠ .error .notFound) → (scriptedView world).content path = none := by
  intro absent finds
  change (world.files path).map _ = none
  cases held : world.files path with
  | none => rfl
  | some text =>
    rw [held] at absent
    exact absurd absent (finds text)

theorem scripted_lawful (follow : Bool) : Lawful scripted follow scriptedView := by
  constructor
  · intro path world
    rfl
  · intro path world metadata _ _ _ linked
    exact linked
  · intro path world absent
    exact scripted_read absent (by simp)
  · intro path world
    rfl
  · intro path world text read
    change (world.files path).map _ = _
    change (world.files path).elim _ _ = _ at read
    cases held : world.files path with
    | none =>
      rw [held] at read
      cases read
    | some content =>
      rw [held] at read
      cases read
      rfl
  · intro path world absent
    exact scripted_read absent (by simp)
  · intro path world
    rfl
  · intro path text world
    exact (scripted_update world path (some text)).1
  · intro path text world _
    exact (scripted_update world path (some text)).2
  · intro path world _
    rcases world with ⟨files, _ | left⟩
    · exact (scripted_update ⟨files, none⟩ path none).1
    · exact (scripted_update ⟨files, some left⟩ path left).1
  · intro path world _ done
    rcases world with ⟨files, _ | left⟩
    · exact (scripted_update ⟨files, none⟩ path none).2
    · cases done

def scriptedContext : PatchContext ScriptedWorld (List Char) where
  fs := scripted
  paths := ⟨fun _ path => .ok path, fun _ => none, id⟩
  options := ⟨.normalizeToLf, true⟩
  cwd := []

def stubborn : ScriptedWorld where
  files := update (fun _ => none) "a".toList (some "x\n".toList)
  removal := some (some "x\n".toList)

def replaceX : List UpdateFileChunk := [⟨none, ["x".toList], ["y".toList], [], false⟩]

theorem failed_move_replayable :
    Replayable scriptedView (scriptedView stubborn)
      (runFrom (applyHunksToFiles scriptedContext
        [.updateFile "a".toList (some "b".toList) replaceX]) (patchStart stubborn)).2 := by
  apply (exact_delta_replayable_iff scriptedView scriptedContext _ stubborn
    (scripted_lawful true)).mpr
  refine ⟨?_, ?_⟩
  · intro puts
    exact absurd puts.same (by decide)
  · trivial

theorem self_move_put_back :
    Lawful scriptedContext.fs scriptedContext.options.followSymlinks scriptedView ∧
      ¬ Replayable scriptedView (scriptedView stubborn)
        (runFrom (applyHunksToFiles scriptedContext
          [.updateFile "a".toList (some "a".toList) replaceX]) (patchStart stubborn)).2 := by
  refine ⟨scripted_lawful true, fun replayable => ?_⟩
  have exact : (runFrom (applyHunksToFiles scriptedContext
      [.updateFile "a".toList (some "a".toList) replaceX]) (patchStart stubborn)).2.delta.exact =
        true := by
    decide +kernel
  have same := congrFun (replayable exact).1 "a".toList
  revert same
  decide +kernel

end OpenInterpreter.AppliedDelta
