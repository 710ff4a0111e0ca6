import OpenInterpreter.PolicyPlaces

/-! Materialized workspace roots: `materialize_project_roots_with_path_uris` in
`protocol/src/permissions.rs`. -/

namespace OpenInterpreter.ProjectRoots

open ExecutorPath SandboxAccess

structure NativePaths where
  windowsJoin : PathUri → String → Option PathUri
  windowsGlobDirectory : PathUri → Bool
  nativePathString : PathUri → String

def pathSegments (convention : PathConvention) (text : List Char) : List String :=
  match convention with
  | .posix => splitSegments text
  | .windows => (text.splitOnP fun char => char = '/' ∨ char = '\\').map String.ofList

def homeRelativeSuffix (convention : PathConvention) (path : String) : Option (List Char) :=
  match path.toList with
  | '~' :: suffix =>
    if suffix = [] ∨ suffix.head? = some '/' ∨ (convention = .windows ∧ suffix.head? = some '\\')
    then some suffix else none
  | _ => none

def projectRootsGlobPatternPrefix : List Char := "codex-project-roots://".toList

def workspaceSubpath : FileSystemPath → Option (Option String × Bool)
  | .special (.projectRoots subpath) => some (subpath, false)
  | .globPattern pattern =>
    if projectRootsGlobPatternPrefix <+: pattern.toList then
      some (some (String.ofList (pattern.toList.drop projectRootsGlobPatternPrefix.length)), true)
    else none
  | _ => none

variable (paths : NativePaths)

def validateGlobDirectory (root : PathUri) (convention : PathConvention) : Bool :=
  match convention, root with
  | .windows, _ => paths.windowsGlobDirectory root
  | .posix, .fallback _ _ => false
  | .posix, .url _ segments =>
    inferPathConvention root = some .posix ∧ (lexicalDepth root).isSome ∧
      segments.all fun segment => segment.toList.all fun char =>
        char ∉ ['*', '?', '[', ']', '\x7b', '\x7d', '\\', '\x00']

def resolveScopedWorkspacePath (root : PathUri) (subpath : String) : Option PathUri :=
  match inferPathConvention root with
  | none => none
  | some convention =>
    if subpath.toList.head? = some '/' ∨
        (convention = .windows ∧ subpath.toList.head? = some '\\') ∨
        ((pathSegments convention subpath.toList).any fun segment =>
          segment = "." ∨ segment = "..") ∨
        (convention = .windows ∧ (pathSegments convention subpath.toList).any fun segment =>
          segment.toList.contains ':') then none
    else
      match join paths.windowsJoin root subpath with
      | none => none
      | some path => if startsWith path root then some path else none

def scopedPath (subpath : Option String) (isGlob : Bool) (root : PathUri) : Option PathUri :=
  if isGlob ∧ !(inferPathConvention root).any (validateGlobDirectory paths root) then none
  else
    match subpath with
    | none => some root
    | some subpath => resolveScopedWorkspacePath paths root subpath

variable (entry : FileSystemSandboxEntry)

def scopedEntry (isGlob : Bool) (path : PathUri) : FileSystemSandboxEntry :=
  { entry with
    path := if isGlob then .globPattern (paths.nativePathString path) else .path path }

def fallbackEntry (root : PathUri) : FileSystemSandboxEntry :=
  { entry with path := .path root, access := .deny }

def materializeAtRoot (subpath : Option String) (isGlob : Bool) (root : PathUri) :
    Option FileSystemSandboxEntry :=
  match scopedPath paths subpath isGlob root with
  | some path => some (scopedEntry paths entry isGlob path)
  | none => if !entry.access.canWrite then some (fallbackEntry entry root) else none

def deniesHome (workspaceRoots : List PathUri) (entry : FileSystemSandboxEntry)
    (subpath : Option String) : Bool :=
  entry.access = .deny ∧ subpath.any fun subpath =>
    workspaceRoots.any fun root =>
      (inferPathConvention root).any fun convention => (homeRelativeSuffix convention subpath).isSome

def materializeEntry (workspaceRoots : List PathUri)
    (entry : FileSystemSandboxEntry) : Option (List FileSystemSandboxEntry) :=
  match workspaceSubpath entry.path with
  | none => some [entry]
  | some (subpath, isGlob) =>
    if deniesHome workspaceRoots entry subpath then none
    else some (workspaceRoots.filterMap (materializeAtRoot paths entry subpath isGlob))

def tryMaterializeProjectRootsWithPathUris (policy : FileSystemSandboxPolicy)
    (workspaceRoots : List PathUri) : Option FileSystemSandboxPolicy :=
  (policy.entries.mapM (materializeEntry paths workspaceRoots)).map fun entries =>
    { policy with entries := entries.flatten }

def materializeProjectRootsWithPathUris (policy : FileSystemSandboxPolicy)
    (workspaceRoots : List PathUri) : FileSystemSandboxPolicy :=
  (tryMaterializeProjectRootsWithPathUris paths policy workspaceRoots).getD (restricted [])

end OpenInterpreter.ProjectRoots
