import Mathlib.Order.Basic
import OpenInterpreter.ExecutorPath
import OpenInterpreter.PrefixRules

/-! Filesystem sandbox policies and the access they give to a path:
`protocol/src/permissions.rs`. -/

namespace OpenInterpreter.SandboxAccess

open ExecutorPath

inductive FileSystemAccessMode where
  | read
  | write
  | deny
  deriving DecidableEq

namespace FileSystemAccessMode

def rank : FileSystemAccessMode → Nat
  | .read => 0
  | .write => 1
  | .deny => 2

instance : LinearOrder FileSystemAccessMode :=
  LinearOrder.lift' rank (by intro left right; cases left <;> cases right <;> decide)

variable (access : FileSystemAccessMode)

def canRead : Bool := access ≠ .deny

def canWrite : Bool := access = .write

theorem le_deny : access ≤ .deny := by
  cases access <;> decide

end FileSystemAccessMode

inductive FileSystemSpecialPath where
  | root
  | minimal
  | projectRoots (subpath : Option String)
  | tmpdir
  | slashTmp
  | unknown (path : String) (subpath : Option String)
  deriving DecidableEq

inductive FileSystemPath where
  | path (path : PathUri)
  | globPattern (pattern : String)
  | special (value : FileSystemSpecialPath)
  deriving DecidableEq

inductive FileSystemSandboxEntryMissingPathBehavior where
  | skip
  deriving DecidableEq

structure FileSystemSandboxEntry where
  path : FileSystemPath
  access : FileSystemAccessMode
  missingPathBehavior : Option FileSystemSandboxEntryMissingPathBehavior := none
  deriving DecidableEq

inductive FileSystemSandboxKind where
  | restricted
  | unrestricted
  | externalSandbox
  deriving DecidableEq

structure FileSystemSandboxPolicy where
  kind : FileSystemSandboxKind
  globScanMaxDepth : Option Nat
  entries : List FileSystemSandboxEntry
  deriving DecidableEq

def samePath : FileSystemPath → FileSystemPath → Bool
  | .path left, .path right => sameUri left right
  | .globPattern left, .globPattern right => left = right
  | .special left, .special right => left = right
  | _, _ => false

def sameEntry (left right : FileSystemSandboxEntry) : Bool :=
  samePath left.path right.path ∧ left.access = right.access ∧
    left.missingPathBehavior = right.missingPathBehavior

def restricted (entries : List FileSystemSandboxEntry) : FileSystemSandboxPolicy :=
  ⟨.restricted, none, entries⟩

structure FileSystemSandboxPolicyContext where
  cwd : PathUri
  workspaceRoots : List PathUri
  temporaryDirectories : Option (List PathUri)
  deriving DecidableEq

def protectedMetadataPathNames : List String := [".git", ".agents", ".codex"]

def specialPathMatchesPathUri (value : FileSystemSpecialPath) (path : PathUri) : Bool :=
  match value with
  | .root =>
    match path with
    | .url host segments => (lexicalDepth path).isSome ∧ rootOf host segments = path
    | .fallback _ _ => false
  | .slashTmp =>
    inferPathConvention path = some .posix ∧ lexicalDepth path = some 1 ∧ path = .url none ["tmp"]
  | _ => false

def fileSystemPathsShareTarget (left right : FileSystemPath) (convention : PathConvention) : Bool :=
  match left, right with
  | .path left, .path right => sameUri left right
  | .special left, .special right => left = right
  | .path path, .special value | .special value, .path path =>
    inferPathConvention path = some convention ∧ specialPathMatchesPathUri value path
  | .globPattern left, .globPattern right => left = right
  | .globPattern _, _ | _, .globPattern _ => false

variable (entries : List FileSystemSandboxEntry)

def hasRootAccess (predicate : FileSystemAccessMode → Bool) : Bool :=
  entries.any fun entry => entry.path = .special .root ∧ predicate entry.access

def hasSameTargetWriteOverride (entry : FileSystemSandboxEntry) (convention : PathConvention) :
    Bool :=
  entries.any fun candidate =>
    candidate.access.canWrite ∧ entry.access < candidate.access ∧
      fileSystemPathsShareTarget candidate.path entry.path convention

def narrowsWrite (convention : PathConvention) (entry : FileSystemSandboxEntry) : Bool :=
  if entry.access.canWrite then false
  else
    match entry.path with
    | .path _ => !hasSameTargetWriteOverride entries entry convention
    | .globPattern _ => true
    | .special .root => entry.access = .deny
    | .special .slashTmp =>
      if convention = .windows then false
      else !hasSameTargetWriteOverride entries entry convention
    | .special .minimal | .special (.unknown _ _) => false
    | .special _ => !hasSameTargetWriteOverride entries entry convention

def hasWriteNarrowingEntries (convention : PathConvention) : Bool :=
  entries.any (narrowsWrite entries convention)

def hasFullDiskWriteAccessForConvention (policy : FileSystemSandboxPolicy)
    (convention : Option PathConvention) : Bool :=
  match policy.kind with
  | .unrestricted | .externalSandbox => true
  | .restricted =>
    convention.any fun convention =>
      hasRootAccess policy.entries FileSystemAccessMode.canWrite &&
        !hasWriteNarrowingEntries policy.entries convention

section

variable (windowsJoin : PathUri → String → Option PathUri)

variable (context : FileSystemSandboxPolicyContext)

def fileSystemRoot : Option PathUri :=
  match context.cwd with
  | .fallback _ _ => none
  | .url host segments =>
    if (lexicalDepth context.cwd).isSome then some (rootOf host segments) else none

def resolvedPaths : FileSystemPath → List PathUri
  | .path path => [path]
  | .globPattern _ => []
  | .special .root => (fileSystemRoot context).toList
  | .special (.projectRoots subpath) =>
    context.workspaceRoots.filterMap fun root =>
      match subpath with
      | some subpath => join windowsJoin root subpath
      | none => some root
  | .special .tmpdir => context.temporaryDirectories.getD []
  | .special .slashTmp =>
    if inferPathConvention context.cwd = some .posix then
      (join windowsJoin context.cwd "/tmp").toList
    else []
  | .special .minimal | .special (.unknown _ _) => []

def entryPaths (entry : FileSystemSandboxEntry) : List PathUri :=
  (resolvedPaths windowsJoin context entry.path).filter fun path =>
    inferPathConvention path = inferPathConvention context.cwd

def resolvedEntries (policy : FileSystemSandboxPolicy) (context : FileSystemSandboxPolicyContext) :
    List (PathUri × FileSystemAccessMode) :=
  policy.entries.flatMap fun entry =>
    (entryPaths windowsJoin context entry).map fun path => (path, entry.access)

def withDepths : List (PathUri × FileSystemAccessMode) →
    Option (List (PathUri × FileSystemAccessMode × Nat))
  | [] => some []
  | (root, access) :: rest =>
    match lexicalDepth root with
    | some depth => (withDepths rest).map fun entries => (root, access, depth) :: entries
    | none => if isOpaque root then withDepths rest else none

def resolveAccess (policy : FileSystemSandboxPolicy) (path : PathUri)
    (context : FileSystemSandboxPolicyContext) : FileSystemAccessMode :=
  match policy.kind with
  | .unrestricted | .externalSandbox => .write
  | .restricted =>
    match inferPathConvention context.cwd with
    | none => .deny
    | some convention =>
      if inferPathConvention path ≠ some convention ∨ lexicalDepth path = none ∨
          lexicalDepth context.cwd = none then .deny
      else
        match withDepths (resolvedEntries windowsJoin policy context) with
        | none => .deny
        | some entries =>
          match (entries.filter fun entry => startsWith path entry.1).argmax fun entry =>
              toLex (entry.2.2, entry.2.1) with
          | none => .deny
          | some entry => entry.2.1

def writeRoots (entries : List (PathUri × FileSystemAccessMode)) : List PathUri :=
  (entries.filter fun entry => entry.2.canWrite).map Prod.fst

def protectedOf (path root : PathUri) : Option (PathUri × String) :=
  protectedMetadataPathNames.findSome? fun metadataName =>
    match joinDescendant root metadataName with
    | none => none
    | some protectedPath =>
      if startsWith path protectedPath then some (protectedPath, metadataName) else none

def metadataWriteDenial (policy : FileSystemSandboxPolicy) (path : PathUri)
    (context : FileSystemSandboxPolicyContext) : Option String :=
  match policy.kind with
  | .unrestricted | .externalSandbox => none
  | .restricted =>
    let roots := writeRoots (resolvedEntries windowsJoin policy context)
    match roots.findSome? (protectedOf path) with
    | none => none
    | some (protectedPath, metadataName) =>
      if roots.any fun root => startsWith path root ∧ startsWith root protectedPath then none
      else some metadataName

def hasFullDiskWriteAccessWithContext (policy : FileSystemSandboxPolicy)
    (context : FileSystemSandboxPolicyContext) : Bool :=
  hasFullDiskWriteAccessForConvention policy (inferPathConvention context.cwd)

def canWritePath (policy : FileSystemSandboxPolicy) (path : PathUri)
    (context : FileSystemSandboxPolicyContext) : Bool :=
  if (resolveAccess windowsJoin policy path context).canWrite then
    hasFullDiskWriteAccessWithContext policy context ||
      (metadataWriteDenial windowsJoin policy path context).isNone
  else false

end

end OpenInterpreter.SandboxAccess
