import OpenInterpreter.AppliedDelta
import OpenInterpreter.PlannedEdits

/-! `try_verify_apply_patch_args` of `invocation.rs`: the changes shown before a patch is
applied, against what applying it does. -/

namespace OpenInterpreter.VerifiedPatch

open PatchParser FileUpdate StateProgram ApplyPatch FileSystemLaws PlannedEdits List Option

inductive ApplyPatchFileChange (PathUri : Type) where
  | add (content : List Char)
  | delete (content : List Char)
  | update (unifiedDiff : List Char) (movePath : Option PathUri) (newContent : List Char)
  deriving DecidableEq

/-- The change map of an action, in insertion order; `insert` is only reached for new keys. -/
abbrev ChangeMap (PathUri : Type) := List (PathUri × ApplyPatchFileChange PathUri)

structure ApplyPatchAction (PathUri : Type) where
  changes : ChangeMap PathUri
  patch : List Char
  cwd : PathUri
  updateFileMode : ApplyPatchFileUpdateMode
  deriving DecidableEq

structure VerifyContext (World PathUri : Type) where
  fs : ExecutorFileSystem World PathUri
  paths : PathOps PathUri
  updateFileMode : ApplyPatchFileUpdateMode
  unifiedDiff : List Char → List Char → List Char

variable {World PathUri : Type}

abbrev VerifyProgram (World : Type) := Program World ApplyPatchError

variable (paths : PathOps PathUri)

def joined (cwd : PathUri) (path : List Char) : Except ApplyPatchError PathUri :=
  (paths.join cwd path).mapError .pathUri

def sourcePath : Hunk → PatchPath
  | .addFile path _ | .deleteFile path | .updateFile path _ _ => path

def verifyHunk (context : VerifyContext World PathUri) (cwd path : PathUri) :
    Hunk → VerifyProgram World (ApplyPatchFileChange PathUri)
  | .addFile _ contents => return .add contents
  | .deleteFile _ => ofStep fun world =>
    match context.fs.readFileText true path world with
    | (.ok content, next) => (.ok (.delete content), next)
    | (.error kind, next) => (.error (.ioError ("Failed to read ".toList ++
        context.paths.inferredNativePathString path) kind), next)
  | .updateFile _ movePath chunks => do
      let patch ← ofStep (deriveNewContentsFromChunks context.fs context.paths true
        context.updateFileMode path chunks)
      let dest ← ofResult (movePath.mapM (joined context.paths cwd))
      return .update (context.unifiedDiff patch.originalContents patch.newContents) dest
        patch.newContents

def verifyEach [DecidableEq PathUri] (context : VerifyContext World PathUri) (cwd : PathUri) :
    List Hunk → ChangeMap PathUri → VerifyProgram World (ChangeMap PathUri)
  | [], changes => return changes
  | hunk :: hunks, changes => do
      let path ← ofResult (joined context.paths cwd (sourcePath hunk))
      if path ∈ changes.map Prod.fst then
        throw (.parseError (.invalidPatchError ("multiple operations target " ++
          String.ofList (context.paths.inferredNativePathString path))))
      let change ← verifyHunk context cwd path hunk
      verifyEach context cwd hunks (changes ++ [(path, change)])

def tryVerifyApplyPatchArgs [DecidableEq PathUri] (context : VerifyContext World PathUri)
    (patch : List Char) (hunks : List Hunk) (workdir : Option (List Char)) (cwd : PathUri) :
    VerifyProgram World (ApplyPatchAction PathUri) := do
  let effectiveCwd ← ofResult (workdir.elim (.ok cwd) (joined context.paths cwd))
  let changes ← verifyEach context effectiveCwd hunks []
  return ⟨changes, patch, effectiveCwd, context.updateFileMode⟩

def rewriteWith (mode : ApplyPatchFileUpdateMode) (path : PathUri)
    (chunks : List UpdateFileChunk) : FileContent → Option FileContent
  | .text content =>
    (deriveNewContents (paths.inferredNativePathString path) chunks mode content).toOption.map
      .text
  | .bytes _ => none

def hunkEdit (mode : ApplyPatchFileUpdateMode) (cwd : PathUri)
    (hunk : Hunk) : Except ApplyPatchError (Edit PathUri FileContent) := do
  let path ← joined paths cwd (sourcePath hunk)
  match hunk with
  | .addFile _ contents => return .add path (.text contents)
  | .deleteFile _ => return .delete path
  | .updateFile _ none chunks => return .rewrite path (rewriteWith paths mode path chunks)
  | .updateFile _ (some movePath) chunks => do
      let dest ← joined paths cwd movePath
      return .move path dest (rewriteWith paths mode path chunks)

inductive Shows (before : PlannedEdits.Files PathUri FileContent) :
    Edit PathUri FileContent → PathUri × ApplyPatchFileChange PathUri → Prop
  | add (path : PathUri) (content : List Char) :
      Shows before (.add path (.text content)) (path, .add content)
  | delete (path : PathUri) (content : List Char) :
      Shows before (.delete path) (path, .delete content)
  | rewrite (path : PathUri) (change : FileContent → Option FileContent)
      (diff newContent : List Char) (planned : (before path).bind change = some (.text newContent)) :
      Shows before (.rewrite path change) (path, .update diff none newContent)
  | move (path dest : PathUri) (change : FileContent → Option FileContent)
      (diff newContent : List Char) (planned : (before path).bind change = some (.text newContent)) :
      Shows before (.move path dest change) (path, .update diff (some dest) newContent)

def Shown (after : PlannedEdits.Files PathUri FileContent) :
    PathUri × ApplyPatchFileChange PathUri → Prop
  | (path, .add content) => after path = some (.text content)
  | (path, .delete _) => after path = none
  | (path, .update _ none newContent) => after path = some (.text newContent)
  | (path, .update _ (some dest) newContent) =>
    after dest = some (.text newContent) ∧ (path ≠ dest → after path = none)

def NamedBy (path : PathUri) (entry : PathUri × ApplyPatchFileChange PathUri) : Prop :=
  path = entry.1 ∨ ∃ diff newContent, entry.2 = .update diff (some path) newContent

structure ChangesCarriedOut (changes : ChangeMap PathUri)
    (before after : PlannedEdits.Files PathUri FileContent) : Prop where
  shown : ∀ entry ∈ changes, Shown after entry
  others : ∀ path, (∀ entry ∈ changes, ¬ NamedBy path entry) → after path = before path

variable {edits : List (Edit PathUri FileContent)} {edit : Edit PathUri FileContent}

section Correspondence

variable {before after : PlannedEdits.Files PathUri FileContent}
  {entry : PathUri × ApplyPatchFileChange PathUri}

section

variable (shows : Shows before edit entry)
include shows

theorem Shows.source : edit.source = entry.1 := by
  cases shows <;> rfl

theorem Shows.planned : Planned before edit := by
  cases shows with
  | add | delete => trivial
  | rewrite path change diff newContent planned | move path dest change diff newContent planned =>
    exact isSome_iff_exists.mpr ⟨_, planned⟩

theorem Shows.names (path : PathUri) : edit.Names path ↔ NamedBy path entry := by
  cases shows <;> simp [Edit.Names, Edit.source, Edit.dest, NamedBy]

theorem Shows.shown_iff :
    Shown after entry ↔ ∀ path text, Announces before edit path text → after path = text := by
  cases shows with
  | add path content =>
    constructor
    · intro shown other text announced
      cases announced
      exact shown
    · exact fun holds => holds path _ (.add path _)
  | delete path content =>
    constructor
    · intro shown other text announced
      cases announced
      exact shown
    · exact fun holds => holds _ _ (.delete path)
  | rewrite path change diff newContent planned =>
    constructor
    · intro shown other text announced
      cases announced
      rw [planned]
      exact shown
    · intro holds
      change after path = some _
      rw [← planned]
      exact holds _ _ (.rewrite path change)
  | move path dest change diff newContent planned =>
    constructor
    · intro shown other text announced
      cases announced with
      | moved =>
        rw [planned]
        exact shown.1
      | left _ _ _ apart => exact shown.2 apart
    · intro holds
      constructor
      · rw [← planned]
        exact holds _ _ (.moved path dest change)
      · exact fun apart => holds _ _ (.left path dest change apart)

end

variable {changes : ChangeMap PathUri}

section

variable (shows : Forall₂ (Shows before) edits changes)
include shows

theorem all_shown_iff :
    (∀ entry ∈ changes, Shown after entry) ↔ ∀ edit ∈ edits, ∀ path text,
      Announces before edit path text → after path = text := by
  induction shows with
  | nil => simp
  | cons first rest ih => simp only [forall_mem_cons, first.shown_iff, ih]

theorem unnamed_iff (path : PathUri) :
    (∀ entry ∈ changes, ¬ NamedBy path entry) ↔ ∀ edit ∈ edits, ¬ edit.Names path := by
  induction shows with
  | nil => simp
  | cons first rest ih => simp only [forall_mem_cons, first.names path, ih]

theorem changesCarriedOut_iff :
    ChangesCarriedOut changes before after ↔ CarriedOut edits before after := by
  constructor
  · intro carried
    constructor
    · exact (all_shown_iff shows).mp carried.shown
    · exact fun path unnamed => carried.others path ((unnamed_iff shows path).mpr unnamed)
  · intro carried
    constructor
    · exact (all_shown_iff shows).mpr carried.announced
    · exact fun path unnamed => carried.others path ((unnamed_iff shows path).mp unnamed)

theorem all_planned : ∀ edit ∈ edits, Planned before edit := by
  induction shows with
  | nil => simp
  | cons first rest ih => exact forall_mem_cons.mpr ⟨first.planned, ih⟩

theorem sources_eq : edits.map Edit.source = changes.map Prod.fst := by
  induction shows with
  | nil => rfl
  | cons first rest ih => rw [map_cons, map_cons, first.source, ih]

end

end Correspondence

variable {hunk : Hunk} {look : World → FileView PathUri PathUri}

section Verification

variable {context : VerifyContext World PathUri}
  (lawful : Lawful context.fs true look) {cwd : PathUri} {world : World}
  (direct : ∀ path, (look world).locate path = path)

include lawful direct

theorem verifyHunk_spec {path : PathUri}
    (resolved : joined context.paths cwd (sourcePath hunk) = .ok path) :
    wp (verifyHunk context cwd path hunk) (fun change final => look final = look world ∧
      ∃ edit, hunkEdit context.paths context.updateFileMode cwd hunk = .ok edit ∧
        Shows (look world).content edit (path, change)) (fun _ => True) world := by
  cases hunk with
  | addFile source contents =>
    refine ⟨rfl, .add path (.text contents), ?_, .add path contents⟩
    unfold hunkEdit
    rw [resolved]
    rfl
  | deleteFile source =>
    unfold verifyHunk
    rw [wp_ofStep]
    have view := lawful.read_view path world
    rcases read : context.fs.readFileText true path world with ⟨_ | content, next⟩
    · trivial
    · rw [read] at view
      refine ⟨view, .delete path, ?_, .delete path content⟩
      unfold hunkEdit
      rw [resolved]
      rfl
  | updateFile source movePath chunks =>
    unfold verifyHunk
    simp only [wp_bind, wp_ofStep, wp_ofResult]
    have derived := derives lawful context.paths context.updateFileMode path chunks world
    rcases outcome : deriveNewContentsFromChunks context.fs context.paths true
      context.updateFileMode path chunks world with ⟨_ | patch, next⟩
    · trivial
    · rw [outcome] at derived
      obtain ⟨held, changed⟩ := derived.2 patch rfl
      rw [direct] at held
      have planned : ((look world).content path).bind
          (rewriteWith context.paths context.updateFileMode path chunks) =
            some (.text patch.newContents) := by
        rw [held, bind_some, rewriteWith, changed]
        rfl
      refine ⟨fun dest moved => ⟨derived.1, ?_⟩, fun _ => trivial⟩
      cases movePath with
      | none =>
        cases moved
        refine ⟨_, ?_, .rewrite path _ _ _ planned⟩
        unfold hunkEdit
        rw [resolved]
        rfl
      | some target =>
        cases joining : joined context.paths cwd target with
        | error failure =>
          simp [joining] at moved
        | ok destUri =>
          simp [joining] at moved
          cases moved
          refine ⟨_, ?_, .move path destUri _ _ _ planned⟩
          unfold hunkEdit
          simp only [resolved, joining]
          rfl

theorem verifyEach_spec [DecidableEq PathUri] (hunks : List Hunk) (changes : ChangeMap PathUri)
    (distinct : (changes.map Prod.fst).Nodup) :
    wp (verifyEach context cwd hunks changes) (fun shown final => look final = look world ∧
      (shown.map Prod.fst).Nodup ∧ ∃ edits later, shown = changes ++ later ∧
        hunks.mapM (hunkEdit context.paths context.updateFileMode cwd) = .ok edits ∧
        Forall₂ (Shows (look world).content) edits later) (fun _ => True) world := by
  induction hunks generalizing changes world with
  | nil => exact ⟨rfl, distinct, [], [], by simp, rfl, .nil⟩
  | cons hunk hunks ih =>
    unfold verifyEach
    simp only [wp_bind, wp_ofResult]
    refine ⟨fun path resolved => ?_, fun _ => trivial⟩
    by_cases known : path ∈ changes.map Prod.fst
    · rw [if_pos known]
      trivial
    · rw [if_neg known, wp_bind]
      apply wp_ok (verifyHunk_spec lawful direct resolved)
      rintro change middle ⟨view, edit, found, shows⟩
      have directMiddle : ∀ path, (look middle).locate path = path := by
        rw [view]
        exact direct
      have distinctNext : ((changes ++ [(path, change)]).map Prod.fst).Nodup := by
        rw [map_append]
        apply distinct.append (nodup_singleton _)
        simpa using known
      apply wp_ok (ih directMiddle (changes ++ [(path, change)]) distinctNext)
      rintro shown final ⟨finalView, finalDistinct, edits, later, whole, mapped, rest⟩
      rw [view] at rest
      refine ⟨finalView.trans view, finalDistinct, edit :: edits, (path, change) :: later, ?_, ?_,
        .cons shows rest⟩
      · rw [whole, append_assoc]
        rfl
      · rw [mapM_cons, found, mapped]
        rfl

theorem tryVerify_spec [DecidableEq PathUri] (patch : List Char) (hunks : List Hunk)
    (workdir : Option (List Char)) :
    wp (tryVerifyApplyPatchArgs context patch hunks workdir cwd) (fun action final =>
      look final = look world ∧ action.updateFileMode = context.updateFileMode ∧
        (action.changes.map Prod.fst).Nodup ∧ ∃ edits,
          hunks.mapM (hunkEdit context.paths context.updateFileMode action.cwd) = .ok edits ∧
          Forall₂ (Shows (look world).content) edits action.changes)
      (fun _ => True) world := by
  unfold tryVerifyApplyPatchArgs
  simp only [wp_bind, wp_ofResult, wp_pure]
  refine ⟨fun effectiveCwd _ => ?_, fun _ => trivial⟩
  apply wp_ok (verifyEach_spec lawful direct hunks [] nodup_nil)
  rintro shown final ⟨view, distinct, edits, later, whole, mapped, shows⟩
  rw [nil_append] at whole
  rw [← whole] at shows
  exact ⟨view, trivial, distinct, edits, mapped, shows⟩

end Verification

theorem rewriteWith_text {context : PatchContext World PathUri} {path : PathUri}
    {chunks : List UpdateFileChunk} {original newContents : List Char}
    (derived : deriveNewContents (context.native path) chunks context.options.updateFileMode
      original = .ok newContents) :
    rewriteWith context.paths context.options.updateFileMode path chunks (.text original) =
      some (.text newContents) := by
  change (Except.toOption (deriveNewContents (context.native path) chunks _ original)).map _ = _
  rw [derived]
  rfl

variable {paths : PathOps PathUri} {cwd : PathUri} {uri : PathUri}

theorem joined_eq {path : List Char} :
    joined paths cwd path = .ok uri ↔ paths.join cwd path = .ok uri := by
  unfold joined
  cases paths.join cwd path <;> simp [Except.mapError]

variable {mode : ApplyPatchFileUpdateMode}

theorem hunkEdit_source (found : hunkEdit paths mode cwd hunk = .ok edit) :
    joined paths cwd (sourcePath hunk) = .ok edit.source := by
  unfold hunkEdit at found
  cases resolved : joined paths cwd (sourcePath hunk) with
  | error failure =>
    rw [resolved] at found
    cases found
  | ok uri =>
    rw [resolved] at found
    cases hunk with
    | addFile | deleteFile =>
      cases found
      rfl
    | updateFile path movePath chunks =>
      cases movePath with
      | none =>
        cases found
        rfl
      | some dest =>
        cases moving : joined paths cwd dest with
        | error failure =>
          simp only [moving] at found
          cases found
        | ok destUri =>
          simp only [moving] at found
          cases found
          rfl

theorem mapM_cons_ok {hunks : List Hunk}
    {toEdit : Hunk → Except ApplyPatchError (Edit PathUri FileContent)}
    (found : (hunk :: hunks).mapM toEdit = .ok edits) :
    ∃ edit later, edits = edit :: later ∧ toEdit hunk = .ok edit ∧ hunks.mapM toEdit = .ok later := by
  rw [mapM_cons] at found
  cases first : toEdit hunk with
  | error failure =>
    rw [first] at found
    cases found
  | ok edit =>
    cases rest : hunks.mapM toEdit with
    | error failure =>
      rw [first, rest] at found
      cases found
    | ok later =>
      rw [first, rest] at found
      cases found
      exact ⟨edit, later, rfl, rfl, rfl⟩

theorem edits_plain {view : FileView PathUri PathUri}
    {hunks : List Hunk}
    (found : hunks.mapM (hunkEdit paths mode cwd) = .ok edits)
    (plain : ∀ hunk ∈ hunks, ∀ uri, joined paths cwd (sourcePath hunk) = .ok uri →
      ¬ view.linked uri) : ∀ edit ∈ edits, ¬ view.linked edit.source := by
  induction hunks generalizing edits with
  | nil =>
    cases found
    simp
  | cons hunk hunks ih =>
    obtain ⟨edit, later, rfl, first, rest⟩ := mapM_cons_ok found
    obtain ⟨plainFirst, plainLater⟩ := forall_mem_cons.mp plain
    rw [forall_mem_cons]
    constructor
    · exact plainFirst edit.source (hunkEdit_source first)
    · exact ih rest plainLater

structure RanAs [DecidableEq PathUri] (look : World → FileView PathUri PathUri)
    (edit : Edit PathUri FileContent)
    (run next : PatchRun World PathUri) : Prop where
  ran : edit.run (look run.world).content = some (look next.world).content
  locate : (look next.world).locate = (look run.world).locate
  linked : (look next.world).linked = (look run.world).linked

section Application

variable [DecidableEq PathUri] {context : PatchContext World PathUri}
  (lawful : Lawful context.fs context.options.followSymlinks look)
  {run : PatchRun World PathUri} (direct : ∀ path, (look run.world).locate path = path)

include lawful direct

variable {path : PatchPath}

theorem addHunk_ran (contents : List Char)
    (resolved : context.paths.join context.cwd path = .ok uri) :
    wp (addHunk context path contents)
      (fun _ next => RanAs look (.add uri (.text contents)) run next) (fun _ => True) run := by
  unfold addHunk
  simp only [wp_bind, wp_resolve]
  refine ⟨fun other joining => ?_, fun _ => trivial⟩
  cases resolved.symm.trans joining
  apply wp_ok (readOptional_spec lawful uri run (fun _ => True))
  rintro overwritten noted ⟨seen, -⟩
  apply wp_ok (writeRetry_spec lawful uri contents noted (fun _ => True))
  intro result written wrote
  simp only [wp_tryWrite]
  refine ⟨fun done => ?_, fun _ => trivial⟩
  have content := wrote.touches.content_eq (wrote.written done)
  rw [seen.view, direct] at content
  constructor
  · rw [Edit.run, content]
  · rw [wrote.touches.locate, seen.view]
  · rw [wrote.touches.linked, seen.view]

theorem deleteHunk_ran (resolved : context.paths.join context.cwd path = .ok uri)
    (plain : ¬ (look run.world).linked uri) :
    wp (deleteHunk context path) (fun _ next => RanAs look (.delete uri) run next)
      (fun _ => True) run := by
  unfold deleteHunk PatchContext.readFileText
  simp only [wp_bind, wp_resolve, wp_call]
  refine ⟨fun other joining => ?_, fun _ => trivial⟩
  cases resolved.symm.trans joining
  apply wp_ok (note_spec lawful uri run (fun _ => True))
  intro _ noted seen
  have view := (lawful.read_view uri noted.world).trans seen.view
  -- with or without the text, the same two calls follow
  have removed (middle : PatchRun World PathUri) (expected : Option (List Char))
      (failure : List Char) (same : look middle.world = look run.world) :
      wp (ensureNotDirectory context failure uri) (fun _ checked =>
        wp (removeFile context failure uri expected)
          (fun _ next => RanAs look (.delete uri) run next) (fun _ => True) checked)
        (fun _ => True) middle := by
    apply wp_ok (ensureNotDirectory_spec lawful failure uri middle)
    intro _ checked looked
    have checkedView : look checked.world = look run.world := looked.view.trans same
    apply wp_ok (remove_spec lawful failure uri expected checked)
    rintro _ next ⟨-, gone⟩
    rw [checkedView] at gone
    obtain ⟨touches, absent⟩ := gone plain
    have content := touches.content_eq absent
    rw [direct] at content
    constructor
    · rw [Edit.run, content]
    · exact touches.locate
    · exact touches.linked
  cases result : (context.fs.readFileText context.options.followSymlinks uri noted.world).1 with
  | error kind =>
    simp only [Except.toOption, if_true, wp_bind]
    apply wp_ok (removed _ none _ view)
    intro _ checked rest
    apply wp_mono rest _ (fun _ _ => trivial)
    intro _ next ran
    exact ⟨ran.ran, ran.locate, ran.linked⟩
  | ok content =>
    simp only [Except.toOption, reduceCtorEq, if_false, wp_bind]
    apply wp_ok (removed _ (some content) _ view)
    intro _ checked rest
    apply wp_mono rest _ (fun _ _ => trivial)
    intro _ next ran
    exact ⟨ran.ran, ran.locate, ran.linked⟩

variable (chunks : List UpdateFileChunk)

section

variable (resolved : context.paths.join context.cwd path = .ok uri)
include resolved

theorem updateHunk_ran :
    wp (updateHunk context path chunks)
      (fun _ next => RanAs look (.rewrite uri
        (rewriteWith context.paths context.options.updateFileMode uri chunks)) run next)
      (fun _ => True) run := by
  unfold updateHunk
  simp only [wp_bind, wp_resolve]
  refine ⟨fun other joining => ?_, fun _ => trivial⟩
  cases resolved.symm.trans joining
  apply wp_ok (note_spec lawful uri run (fun _ => True))
  intro _ noted seen
  apply wp_ok (derive_spec lawful uri chunks noted)
  rintro patch derived ⟨looked, held, changed⟩
  have view : look derived.world = look run.world := looked.view.trans seen.view
  rw [seen.view, direct] at held
  apply wp_ok (write_spec lawful uri patch.newContents derived (fun _ => True))
  intro result written wrote
  simp only [wp_tryWrite]
  refine ⟨fun done => ?_, fun _ => trivial⟩
  have content := wrote.touches.content_eq (wrote.written done)
  rw [view, direct] at content
  constructor
  · rw [Edit.run, held, bind_some, rewriteWith_text changed, content]
    rfl
  · rw [wrote.touches.locate, view]
  · rw [wrote.touches.linked, view]

theorem moveHunk_ran {dest : PatchPath} {destUri : PathUri}
    (destResolved : context.paths.join context.cwd dest = .ok destUri)
    (plain : ¬ (look run.world).linked uri) :
    wp (moveHunk context path chunks dest)
      (fun _ next => RanAs look (.move uri destUri
        (rewriteWith context.paths context.options.updateFileMode uri chunks)) run next)
      (fun _ => True) run := by
  unfold moveHunk
  simp only [wp_bind, wp_resolve]
  refine ⟨fun other joining => ?_, fun _ => trivial⟩
  cases resolved.symm.trans joining
  apply wp_ok (writeDestination_spec lawful uri chunks dest run)
  intro written middle moved
  have sameDest : written.destUri = destUri := by
    have joined := moved.resolved
    cases destResolved.symm.trans joined
    rfl
  apply wp_ok (ensureNotDirectory_spec lawful _ uri middle)
  intro _ checked looked
  apply wp_ok (remove_spec lawful _ uri (some written.patch.originalContents) checked)
  rintro _ removed ⟨-, gone⟩
  rw [looked.view, moved.touches.linked] at gone
  obtain ⟨touches, absent⟩ := gone plain
  have first := moved.touches.content_eq moved.new
  have second := touches.content_eq absent
  have original := moved.original
  rw [direct] at first original
  rw [moved.touches.locate, direct, first, sameDest] at second
  constructor
  · rw [Edit.run, original, bind_some, rewriteWith_text moved.derived, second]
    rfl
  · rw [touches.locate, moved.touches.locate]
  · rw [touches.linked, moved.touches.linked]

end

theorem applyHunk_ran
    (found : hunkEdit context.paths context.options.updateFileMode context.cwd hunk = .ok edit)
    (plain : ¬ (look run.world).linked edit.source) :
    wp (applyHunk context hunk) (fun _ next => RanAs look edit run next) (fun _ => True) run := by
  unfold hunkEdit at found
  cases resolved : joined context.paths context.cwd (sourcePath hunk) with
  | error failure =>
    rw [resolved] at found
    cases found
  | ok uri =>
    rw [resolved] at found
    have joining := joined_eq.mp resolved
    cases hunk with
    | addFile path contents =>
      cases found
      exact addHunk_ran lawful direct contents joining
    | deleteFile path =>
      cases found
      exact deleteHunk_ran lawful direct joining plain
    | updateFile path movePath chunks =>
      cases movePath with
      | none =>
        cases found
        exact updateHunk_ran lawful direct chunks joining
      | some dest =>
        cases moving : joined context.paths context.cwd dest with
        | error failure =>
          simp only [moving] at found
          cases found
        | ok destUri =>
          simp only [moving] at found
          cases found
          exact moveHunk_ran lawful direct chunks joining
            (joined_eq.mp moving) plain

theorem applyEach_ran (hunks : List Hunk) (edits : List (Edit PathUri FileContent))
    (found : hunks.mapM (hunkEdit context.paths context.options.updateFileMode context.cwd) =
      .ok edits) (plain : ∀ edit ∈ edits, ¬ (look run.world).linked edit.source) :
    wp (applyEach context hunks) (fun _ next =>
      runAll edits (look run.world).content = some (look next.world).content) (fun _ => True)
      run := by
  induction hunks generalizing edits run with
  | nil =>
    cases found
    exact rfl
  | cons hunk hunks ih =>
    obtain ⟨edit, later, rfl, first, rest⟩ := mapM_cons_ok found
    obtain ⟨plainFirst, plainLater⟩ := forall_mem_cons.mp plain
    unfold applyEach
    rw [wp_bind]
    apply wp_ok (applyHunk_ran lawful direct first plainFirst)
    intro _ next step
    have directNext : ∀ path, (look next.world).locate path = path := by
      rw [step.locate]
      exact direct
    apply wp_ok (ih directNext later rest (by rw [step.linked]; exact plainLater))
    intro _ final ran
    change (edit.run (look run.world).content).bind (runAll later) = _
    rw [step.ran]
    exact ran

theorem applyHunksToFiles_ran (hunks : List Hunk) (edits : List (Edit PathUri FileContent))
    (found : hunks.mapM (hunkEdit context.paths context.options.updateFileMode context.cwd) =
      .ok edits) (plain : ∀ edit ∈ edits, ¬ (look run.world).linked edit.source) :
    wp (applyHunksToFiles context hunks) (fun _ next =>
      runAll edits (look run.world).content = some (look next.world).content) (fun _ => True)
      run := by
  unfold applyHunksToFiles
  cases hunks with
  | nil => trivial
  | cons hunk hunks =>
    simp only [reduceCtorEq, if_false, wp_bind]
    exact applyEach_ran lawful direct (hunk :: hunks) edits found plain

end Application

/-- A patch that verification accepts and application then carries through leaves exactly the
changes that were shown iff the hunks settle: no path is shown two outcomes, an update of a
path that an earlier hunk moves to, and no later one does, changes nothing in the text shown,
and a move of a file onto itself is followed by another move to it. -/
theorem application_as_shown_iff [DecidableEq PathUri] (context : VerifyContext World PathUri)
    (follow : Bool) (look : World → FileView PathUri PathUri) (patch : List Char)
    (hunks : List Hunk) (workdir : Option (List Char)) (cwd : PathUri) (world checked : World)
    (action : ApplyPatchAction PathUri) (affected : AffectedPaths) (final : PatchRun World PathUri)
    (lawful : ∀ follow, Lawful context.fs follow look)
    (direct : ∀ path, (look world).locate path = path)
    (plain : ∀ hunk ∈ hunks, ∀ uri,
      joined context.paths action.cwd (sourcePath hunk) = .ok uri → ¬ (look world).linked uri)
    (verified : runFrom (tryVerifyApplyPatchArgs context patch hunks workdir cwd) world =
      (.ok action, checked))
    (applied : runFrom (applyHunksToFiles
      ⟨context.fs, context.paths, ⟨action.updateFileMode, follow⟩, action.cwd⟩ hunks)
      (AppliedDelta.patchStart checked) = (.ok affected, final)) :
    ChangesCarriedOut action.changes (look world).content (look final.world).content ↔
      ∀ edits, hunks.mapM (hunkEdit context.paths context.updateFileMode action.cwd) = .ok edits →
        Settled edits (look world).content := by
  obtain ⟨view, sameMode, distinct, edits, mapped, shows⟩ :=
    wp_of_runFrom (tryVerify_spec (lawful true) direct patch hunks workdir) verified
  have ran : runAll edits (look world).content = some (look final.world).content := by
    have spec : wp (applyHunksToFiles
        ⟨context.fs, context.paths, ⟨action.updateFileMode, follow⟩, action.cwd⟩ hunks)
        (fun _ next => runAll edits (look checked).content = some (look next.world).content)
        (fun _ => True) (AppliedDelta.patchStart checked) := by
      apply applyHunksToFiles_ran (lawful follow)
      · intro path
        change (look checked).locate path = path
        rw [view, direct]
      · rw [sameMode]
        exact mapped
      · change ∀ edit ∈ edits, ¬ (look checked).linked edit.source
        rw [view]
        exact edits_plain mapped plain
    have done := wp_of_runFrom spec applied
    rw [view] at done
    exact done
  rw [← sources_eq shows] at distinct
  rw [changesCarriedOut_iff shows, carriedOut_iff_settled distinct (all_planned shows) ran]
  constructor
  · intro settled others found
    cases mapped.symm.trans found
    exact settled
  · exact fun settled => settled edits mapped

def shownContext : VerifyContext AppliedDelta.ScriptedWorld (List Char) where
  fs := AppliedDelta.scripted
  paths := AppliedDelta.scriptedContext.paths
  updateFileMode := .normalizeToLf
  unifiedDiff _ _ := []

def willing : AppliedDelta.ScriptedWorld := { AppliedDelta.stubborn with removal := none }

variable (dest : PatchPath)

def moveA : Hunk := .updateFile "a".toList (some dest) AppliedDelta.replaceX

def verifyMove :
    Except ApplyPatchError (ApplyPatchAction (List Char)) × AppliedDelta.ScriptedWorld :=
  runFrom (tryVerifyApplyPatchArgs shownContext [] [moveA dest] none []) willing

def applyMove :
    Except ApplyPatchError AffectedPaths × PatchRun AppliedDelta.ScriptedWorld (List Char) :=
  runFrom (applyHunksToFiles
    ⟨shownContext.fs, shownContext.paths, ⟨.normalizeToLf, true⟩, []⟩ [moveA dest])
    (AppliedDelta.patchStart (verifyMove dest).2)

def shownMove : ApplyPatchAction (List Char) :=
  ⟨[("a".toList, .update [] (some dest) "y\n".toList)], [], [], .normalizeToLf⟩

theorem move_as_shown :
    (verifyMove "b".toList).1 = .ok (shownMove "b".toList) ∧
      (applyMove "b".toList).1 = .ok ⟨[], ["b".toList], []⟩ ∧
      ChangesCarriedOut (shownMove "b".toList).changes
        (AppliedDelta.scriptedView willing).content
        (AppliedDelta.scriptedView (applyMove "b".toList).2.world).content := by
  have verified : (verifyMove "b".toList).1 = .ok (shownMove "b".toList) := by decide +kernel
  have applied : (applyMove "b".toList).1 = .ok ⟨[], ["b".toList], []⟩ := by decide +kernel
  refine ⟨verified, applied, ?_⟩
  apply (application_as_shown_iff shownContext true AppliedDelta.scriptedView []
    [moveA "b".toList] none [] willing (verifyMove "b".toList).2 (shownMove "b".toList)
    ⟨[], ["b".toList], []⟩ (applyMove "b".toList).2 AppliedDelta.scripted_lawful (fun _ => rfl)
    (fun _ _ _ _ linked => linked) (Prod.ext verified rfl) (Prod.ext applied rfl)).mpr
  intro edits found
  cases found
  apply settled_of_disjoint (pairwise_singleton _ _)
  intro path change member
  cases mem_singleton.mp member

/-- A move of a file onto itself is shown as an update and removes the file. -/
theorem self_move_not_as_shown :
    (verifyMove "a".toList).1 = .ok (shownMove "a".toList) ∧
      (applyMove "a".toList).1 = .ok ⟨[], ["a".toList], []⟩ ∧
      ¬ ChangesCarriedOut (shownMove "a".toList).changes
        (AppliedDelta.scriptedView willing).content
        (AppliedDelta.scriptedView (applyMove "a".toList).2.world).content := by
  refine ⟨by decide +kernel, by decide +kernel, fun carried => ?_⟩
  have shown := (carried.shown _ (mem_singleton.mpr rfl)).1
  revert shown
  decide +kernel

end OpenInterpreter.VerifiedPatch
