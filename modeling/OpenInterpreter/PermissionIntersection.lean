import OpenInterpreter.ReadDenyMatcher

/-! Permissions that a user approved, cut down to the request:
`sandboxing/src/policy_transforms.rs`. -/

namespace OpenInterpreter.PermissionIntersection

open ExecutorPath SandboxAccess ReadDenyMatcher List

structure NetworkPermissions where
  enabled : Option Bool
  deriving DecidableEq

abbrev NonZero := { count : Nat // 0 < count }

def NonZero.new (count : Nat) : Option NonZero :=
  if positive : 0 < count then some ⟨count, positive⟩ else none

structure FileSystemPermissions where
  entries : List FileSystemSandboxEntry
  globScanMaxDepth : Option NonZero
  deriving DecidableEq

structure AdditionalPermissionProfile where
  network : Option NetworkPermissions
  fileSystem : Option FileSystemPermissions
  deriving DecidableEq

inductive GlobScanDepth where
  | bounded (depth : Nat)
  | unbounded
  deriving DecidableEq

def effectiveGlobScanDepth (entries : List FileSystemSandboxEntry) (depth : Option NonZero) :
    Option GlobScanDepth :=
  if (deniedPatterns (restricted entries)).isEmpty then none
  else
    match depth with
    | some depth => some (.bounded depth.1)
    | none => some .unbounded

def mergeGlobScanMaxDepth (leftEntries : List FileSystemSandboxEntry) (leftDepth : Option NonZero)
    (rightEntries : List FileSystemSandboxEntry) (rightDepth : Option NonZero) : Option Nat :=
  match effectiveGlobScanDepth leftEntries leftDepth,
    effectiveGlobScanDepth rightEntries rightDepth with
  | some .unbounded, _ | _, some .unbounded => none
  | some (.bounded left), some (.bounded right) => some (max left right)
  | some (.bounded depth), none | none, some (.bounded depth) => some depth
  | none, none => none

def accessCovers (requested granted : FileSystemAccessMode) : Bool :=
  match granted with
  | .read => requested.canRead
  | .write => requested.canWrite
  | .deny => false

def isRootEntry (entry : FileSystemSandboxEntry) : Bool := entry.path = .special .root

def pathsOverlap (left right : PathUri) : Bool :=
  if sameUri left right then true
  else if lexicalDepth left = none ∨ lexicalDepth right = none then true
  else startsWith left right || startsWith right left

def parent : PathUri → Option PathUri
  | .fallback _ _ => none
  | .url host segments =>
    let anchorDepth := match urlConvention host segments with
      | .windows => 1
      | .posix => 0
    if segments.length ≤ anchorDepth then none else some (.url host segments.dropLast)

section

variable (host : GlobHost) (context : FileSystemSandboxPolicyContext)

def resolvePermissionPath : FileSystemPath → Option PathUri
  | .path path => some path
  | .globPattern _ => none
  | .special .root => fileSystemRoot context
  | .special (.projectRoots subpath) =>
    match context.workspaceRoots.head?, subpath with
    | none, _ => none
    | some root, some subpath => join host.windowsJoin root subpath
    | some root, none => some root
  | .special .tmpdir => context.temporaryDirectories.bind head?
  | .special .slashTmp =>
    if inferPathConvention context.cwd = some .posix then join host.windowsJoin context.cwd "/tmp"
    else none
  | .special .minimal | .special (.unknown _ _) => none

def homeRelativePattern (isWindows : Bool) (pattern : String) : Option (List Char) :=
  if pattern = "~" then some [] else homePattern isWindows pattern

def materializeCwdDependentEntry (entry : FileSystemSandboxEntry) : Option FileSystemSandboxEntry :=
  match entry.path with
  | .globPattern pattern =>
    let isWindows : Bool := inferPathConvention context.cwd = some .windows
    let joined :=
      match homeRelativePattern isWindows pattern with
      | some suffix => host.userHomeDir.bind fun home =>
        join host.windowsJoin home (String.ofList suffix)
      | none => join host.windowsJoin context.cwd pattern
    joined.map fun path => { entry with path := .globPattern (host.nativePathString path) }
  | .path _ | .special _ => some entry

def materializedPathEntry (entry : FileSystemSandboxEntry) (path : PathUri) :
    FileSystemSandboxEntry :=
  { entry with path := .path path }

def pathAtRoot (entry : FileSystemSandboxEntry) (root : PathUri) : Option PathUri :=
  resolvePermissionPath host { context with workspaceRoots := [root] } entry.path

/-- The loop body of `materialize_context_dependent_entries`. A denial that cannot be resolved
fails. -/
def materializeEntry (entry : FileSystemSandboxEntry) : Option (List FileSystemSandboxEntry) :=
  match entry.path with
  | .special (.projectRoots _) =>
    if entry.access = .deny ∧ (context.workspaceRoots = [] ∨
          context.workspaceRoots.any fun root => (pathAtRoot host context entry root).isNone) then
      none
    else
      some ((context.workspaceRoots.filterMap (pathAtRoot host context entry)).map
        (materializedPathEntry entry))
  | .special .tmpdir =>
    match context.temporaryDirectories with
    | none => if entry.access = .deny then none else some [entry]
    | some directories => some (directories.map (materializedPathEntry entry))
  | .special .root =>
    if (resolvePermissionPath host context entry.path).isNone then none else some [entry]
  | _ =>
    match materializeCwdDependentEntry host context entry with
    | some entry => some [entry]
    | none => if entry.access = .deny then none else some []

def materializeContextDependentEntries (entries : List FileSystemSandboxEntry) :
    Option (List FileSystemSandboxEntry) :=
  (entries.mapM (materializeEntry host context)).map flatten

def readDenyMatcher (policy : FileSystemSandboxPolicy) : Option PreparedReadDenyMatcher :=
  if policy.entries.any fun entry => entry.access = .deny then
    (prepareDenyReadMatcher host context policy .failClosed).toOption
  else none

def grantedFileSystemEntryWithinRequest (requested : FileSystemPermissions)
    (requestedPolicy : FileSystemSandboxPolicy)
    (requestedReadDenyMatcher : Option PreparedReadDenyMatcher)
    (grantedEntry : FileSystemSandboxEntry) : Bool :=
  if !grantedEntry.access.canRead ∨
      (grantedEntry.path = .special .slashTmp ∧ inferPathConvention context.cwd ≠ some .posix) then
    false
  else if inferPathConvention context.cwd = some .windows ∧ isRootEntry grantedEntry ∧
      !requested.entries.any (fun requestedEntry => isRootEntry requestedEntry &&
        accessCovers requestedEntry.access grantedEntry.access) then
    false
  else
    match resolvePermissionPath host context grantedEntry.path with
    | some path =>
      if inferPathConvention path ≠ inferPathConvention context.cwd ∨
          requestedReadDenyMatcher.any (matchesPreparedReadDeny host context path) then false
      else accessCovers (resolveAccess host.windowsJoin requestedPolicy path context)
        grantedEntry.access
    | none =>
      requested.entries.any fun requestedEntry =>
        accessCovers requestedEntry.access grantedEntry.access &&
          samePath requestedEntry.path grantedEntry.path

def globStaticPrefixPath (pattern : String) : Option PathUri :=
  let isWindows : Bool := inferPathConvention context.cwd = some .windows
  let text := pattern.toList
  let start := text.takeWhile fun char => char ∉ ['*', '?', '[', ']']
  if start = [] ∧ text ≠ [] then none
  else
    let wildcardInSegment : Bool := start ≠ text ∧
      ¬ (start.getLast? = some '/' ∨ isWindows ∧ start.getLast? = some '\\')
    (join host.windowsJoin context.cwd (String.ofList start)).bind fun path =>
      if wildcardInSegment then parent path else some path

def denyEntryConstrainsAcceptedGrant (denyEntry : FileSystemSandboxEntry)
    (acceptedEntries : List FileSystemSandboxEntry) : Bool :=
  (acceptedEntries.filter fun entry => entry.access.canRead).any fun entry =>
    if isRootEntry entry then true
    else
      match resolvePermissionPath host context entry.path with
      | none => true
      | some grantPath =>
        let denyPath :=
          match denyEntry.path with
          | .globPattern pattern => globStaticPrefixPath host context pattern
          | _ => resolvePermissionPath host context denyEntry.path
        match denyPath with
        | none => true
        | some denyPath => pathsOverlap denyPath grantPath

def pushNew (entries : List FileSystemSandboxEntry) (entry : FileSystemSandboxEntry) :
    List FileSystemSandboxEntry :=
  if entries.any (sameEntry · entry) then entries else entries ++ [entry]

/-- The denials that `retain_constraining_deny_entries` returns. It also pushes them to the output. -/
def retainedDenyEntries (sourceEntries acceptedEntries : List FileSystemSandboxEntry) :
    List FileSystemSandboxEntry :=
  sourceEntries.filter fun entry =>
    entry.access = .deny ∧ denyEntryConstrainsAcceptedGrant host context entry acceptedEntries

def acceptedEntries (requested : FileSystemPermissions)
    (requestedEntries grantedEntries : List FileSystemSandboxEntry) : List FileSystemSandboxEntry :=
  let requestedPolicy := restricted requestedEntries
  (grantedEntries.filter (grantedFileSystemEntryWithinRequest host context requested requestedPolicy
    (readDenyMatcher host context requestedPolicy))).foldl pushNew []

def intersectedEntries (accepted requestedRetained grantedRetained : List FileSystemSandboxEntry) :
    List FileSystemSandboxEntry :=
  grantedRetained.foldl pushNew (requestedRetained.foldl pushNew accepted)

def intersectFileSystem (requested granted : FileSystemPermissions) :
    Option FileSystemPermissions :=
  match materializeContextDependentEntries host context requested.entries,
    materializeContextDependentEntries host context granted.entries with
  | some requestedEntries, some grantedEntries =>
    let accepted := acceptedEntries host context requested requestedEntries grantedEntries
    let requestedRetained := retainedDenyEntries host context requestedEntries accepted
    let grantedRetained := retainedDenyEntries host context grantedEntries accepted
    some
      { entries := intersectedEntries accepted requestedRetained grantedRetained
        globScanMaxDepth :=
          (mergeGlobScanMaxDepth requestedRetained requested.globScanMaxDepth
            grantedRetained granted.globScanMaxDepth).bind NonZero.new }
  | _, _ => none

def intersectPermissionProfilesWithContext (requested granted : AdditionalPermissionProfile) :
    AdditionalPermissionProfile where
  network :=
    if requested.network = some ⟨some true⟩ ∧ granted.network = some ⟨some true⟩ then
      some ⟨some true⟩
    else none
  fileSystem := (requested.fileSystem.bind fun requested =>
      intersectFileSystem host context requested (granted.fileSystem.getD ⟨[], none⟩)).filter
        fun permissions => !permissions.entries.isEmpty

end

def AdditionalPermissionProfile.entries (profile : AdditionalPermissionProfile) :
    List FileSystemSandboxEntry :=
  (profile.fileSystem.map FileSystemPermissions.entries).getD []

end OpenInterpreter.PermissionIntersection
