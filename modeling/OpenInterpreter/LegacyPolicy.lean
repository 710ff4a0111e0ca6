import Mathlib.Data.List.Lex
import Mathlib.Data.List.Sort
import Mathlib.Data.String.Basic
import OpenInterpreter.LocalPolicy

/-! The legacy form of a policy, the semantic signature, and when the legacy sandbox may be used:
`to_legacy_sandbox_policy`, `semantic_signature` and `needs_direct_runtime_enforcement`. The host is
the one of the writable roots. -/

namespace OpenInterpreter.LegacyPolicy

open ExecutorPath SandboxAccess LocalPaths LocalPolicy

inductive NetworkSandboxPolicy where
  | restricted
  | enabled
  deriving DecidableEq

def NetworkSandboxPolicy.isEnabled (network : NetworkSandboxPolicy) : Bool := network = .enabled

inductive SandboxPolicy where
  | dangerFullAccess
  | externalSandbox (networkEnabled : Bool)
  | readOnly (networkAccess : Bool)
  | workspaceWrite (writableRoots : List HostPath) (networkAccess excludeTmpdirEnvVar
      excludeSlashTmp : Bool)
  deriving DecidableEq

inductive LegacyPolicyError where
  | invalidPath
  | writesOutsideWorkspaceRoot
  deriving DecidableEq

/-- What the scan of `to_legacy_sandbox_policy` has seen. -/
structure LegacyScan where
  workspaceRootWritable : Bool
  writableRoots : List HostPath
  tmpdirWritable : Bool
  slashTmpWritable : Bool
  unbridgeableRootWrite : Bool
  deriving DecidableEq

def LegacyScan.empty : LegacyScan := ⟨false, [], false, false, false⟩

section

variable (host : Host) (cwd : HostPath)

def scanEntry (scan : LegacyScan) (entry : FileSystemSandboxEntry) :
    Except LegacyPolicyError LegacyScan :=
  match entry.path with
  | .globPattern _ => .ok scan
  | .path path =>
    if entry.access.canWrite then
      match toAbsPath path with
      | none => .error .invalidPath
      | some path =>
        if cwd = path then .ok { scan with workspaceRootWritable := true }
        else .ok { scan with writableRoots := scan.writableRoots ++ [path] }
    else .ok scan
  | .special .root =>
    match entry.access with
    | .deny | .read => .ok scan
    | .write => .ok { scan with unbridgeableRootWrite := true }
  | .special .minimal => .ok scan
  | .special (.projectRoots subpath) =>
    if subpath = none ∧ entry.access.canWrite then .ok { scan with workspaceRootWritable := true }
    else
      match resolveEntryPath host cwd entry.path with
      | some path =>
        if entry.access.canWrite then
          .ok { scan with writableRoots := scan.writableRoots ++ [path] }
        else .ok scan
      | none => .ok scan
  | .special .tmpdir =>
    if entry.access.canWrite then .ok { scan with tmpdirWritable := true } else .ok scan
  | .special .slashTmp =>
    if entry.access.canWrite then .ok { scan with slashTmpWritable := true } else .ok scan
  | .special (.unknown _ _) => .ok scan

def toLegacySandboxPolicy (policy : FileSystemSandboxPolicy) (network : NetworkSandboxPolicy) :
    Except LegacyPolicyError SandboxPolicy :=
  match policy.kind with
  | .externalSandbox => .ok (.externalSandbox network.isEnabled)
  | .unrestricted =>
    .ok (if network.isEnabled then .dangerFullAccess else .externalSandbox false)
  | .restricted =>
    match policy.entries.foldlM (scanEntry host cwd) LegacyScan.empty with
    | .error error => .error error
    | .ok scan =>
      if hasFullDiskWriteAccess policy then
        .ok (if network.isEnabled then .dangerFullAccess else .externalSandbox false)
      else if scan.workspaceRootWritable then
        .ok (.workspaceWrite (dedupAbsolutePaths scan.writableRoots) network.isEnabled
          (!scan.tmpdirWritable) (!scan.slashTmpWritable))
      else if scan.unbridgeableRootWrite ∨ scan.writableRoots ≠ [] ∨ scan.tmpdirWritable ∨
          scan.slashTmpWritable then
        .error .writesOutsideWorkspaceRoot
      else .ok (.readOnly network.isEnabled)

def legacyWritableRootsWithCwd : SandboxPolicy → List WritableRoot
  | .dangerFullAccess | .externalSandbox _ | .readOnly _ => []
  | .workspaceWrite writableRoots _ excludeTmpdirEnvVar excludeSlashTmp =>
    let roots := writableRoots ++ [cwd] ++ (if excludeSlashTmp then [] else [slashTmp]) ++
      (if excludeTmpdirEnvVar then [] else host.tmpdir.toList)
    roots.map fun writableRoot =>
      { root := writableRoot
        readOnlySubpaths := defaultReadOnlySubpathsForWritableRoot writableRoot (cwd = writableRoot)
        protectedMetadataNames := [] }

def appendDefaultReadOnlyPathIfNoExplicitRule (entries : List FileSystemSandboxEntry)
    (path : HostPath) : List FileSystemSandboxEntry :=
  if entries.any fun entry =>
      fileSystemPathsShareTarget entry.path (.path (fromAbsPath path)) .posix then entries
  else
    entries ++ [{ path := .path (fromAbsPath path), access := .read,
                  missingPathBehavior := some .skip }]

def specialEntry (value : FileSystemSpecialPath) (access : FileSystemAccessMode) :
    FileSystemSandboxEntry :=
  { path := .special value, access := access }

def legacyRuntimeFileSystemPolicyForCwd : SandboxPolicy → FileSystemSandboxPolicy
  | .dangerFullAccess => ⟨.unrestricted, none, []⟩
  | .externalSandbox _ => ⟨.externalSandbox, none, []⟩
  | .readOnly _ => restricted [specialEntry .root .read]
  | .workspaceWrite writableRoots _ excludeTmpdirEnvVar excludeSlashTmp =>
    let entries := [specialEntry .root .read, specialEntry (.projectRoots none) .write] ++
      (if excludeSlashTmp then [] else [specialEntry .slashTmp .write]) ++
      (if excludeTmpdirEnvVar then [] else [specialEntry .tmpdir .write]) ++
      writableRoots.map fun path => { path := .path (fromAbsPath path), access := .write }
    let withCwd := (defaultReadOnlySubpathsForWritableRoot cwd true).foldl
      appendDefaultReadOnlyPathIfNoExplicitRule entries
    restricted (writableRoots.foldl (fun entries writableRoot =>
      (defaultReadOnlySubpathsForWritableRoot writableRoot false).foldl
        appendDefaultReadOnlyPathIfNoExplicitRule entries) withCwd)

end

def hasFullDiskReadAccess (policy : FileSystemSandboxPolicy) : Bool :=
  match policy.kind with
  | .unrestricted | .externalSandbox => true
  | .restricted =>
    hasRootAccess policy.entries FileSystemAccessMode.canRead &&
      !policy.entries.any fun entry => entry.access = .deny

def includePlatformDefaults (policy : FileSystemSandboxPolicy) : Bool :=
  !hasFullDiskReadAccess policy && policy.kind = .restricted &&
    policy.entries.any fun entry => entry.path = .special .minimal ∧ entry.access.canRead

def sortedAbsolutePaths (paths : List HostPath) : List HostPath :=
  paths.insertionSort fun left right => left.components ≤ right.components

def sortedWritableRoots (roots : List WritableRoot) : List WritableRoot :=
  (roots.map fun writableRoot =>
    { writableRoot with
      readOnlySubpaths := sortedAbsolutePaths writableRoot.readOnlySubpaths
      protectedMetadataNames := (writableRoot.protectedMetadataNames.insertionSort fun left right =>
          left ≤ right).eraseDups }).insertionSort
    fun left right => left.root.components ≤ right.root.components

structure FileSystemSemanticSignature where
  hasFullDiskReadAccess : Bool
  hasFullDiskWriteAccess : Bool
  includePlatformDefaults : Bool
  readableRoots : List HostPath
  writableRoots : List WritableRoot
  unreadableRoots : List HostPath
  unreadableGlobs : List (List Char)
  deriving DecidableEq

section

variable (host : Host) (cwd : HostPath) (windowsJoin : PathUri → String → Option PathUri)
  (policy : FileSystemSandboxPolicy)

def getReadableRootsWithCwd : List HostPath :=
  if hasFullDiskReadAccess policy then []
  else
    dedupAbsolutePaths (((resolvedEntriesWithCwd host cwd policy).filter fun entry =>
      entry.2.canRead && canReadLocalPathWithCwd host cwd windowsJoin policy entry.1).map Prod.fst)

def getUnreadableRootsWithCwd : List HostPath :=
  if policy.kind ≠ .restricted then []
  else
    dedupAbsolutePaths (((resolvedEntriesWithCwd host cwd policy).filter fun entry =>
      entry.2 = .deny && !canReadLocalPathWithCwd host cwd windowsJoin policy entry.1 &&
        HostPath.root ≠ entry.1).map Prod.fst)

def getUnreadableGlobsWithCwd : List (List Char) :=
  if policy.kind ≠ .restricted then []
  else
    ((policy.entries.filterMap fun entry =>
      match entry.access, entry.path with
      | .deny, .globPattern pattern =>
        some (resolvePathAgainstBase host.homeDirectory pattern cwd).nativeText
      | _, _ => none).insertionSort fun left right => left ≤ right).eraseDups

def semanticSignature : FileSystemSemanticSignature where
  hasFullDiskReadAccess := hasFullDiskReadAccess policy
  hasFullDiskWriteAccess := hasFullDiskWriteAccess policy
  includePlatformDefaults := includePlatformDefaults policy
  readableRoots := sortedAbsolutePaths (getReadableRootsWithCwd host cwd windowsJoin policy)
  writableRoots := sortedWritableRoots (getWritableRootsWithCwd host cwd windowsJoin policy)
  unreadableRoots := sortedAbsolutePaths (getUnreadableRootsWithCwd host cwd windowsJoin policy)
  unreadableGlobs := getUnreadableGlobsWithCwd host cwd policy

def isSemanticallyEquivalentTo (other : FileSystemSandboxPolicy) : Bool :=
  semanticSignature host cwd windowsJoin policy = semanticSignature host cwd windowsJoin other

def protectedMetadataNamesNeedDirectRuntimeEnforcement (legacyPolicy : SandboxPolicy) : Bool :=
  (getWritableRootsWithCwd host cwd windowsJoin policy).any fun writableRoot =>
    match (legacyWritableRootsWithCwd host cwd legacyPolicy).find? fun candidate =>
        candidate.root = writableRoot.root with
    | none => writableRoot.protectedMetadataNames ≠ []
    | some legacyRoot =>
      writableRoot.protectedMetadataNames.any fun metadataName =>
        !legacyRoot.readOnlySubpaths.contains (joinName writableRoot.root metadataName)

def needsDirectRuntimeEnforcement (network : NetworkSandboxPolicy) : Bool :=
  if policy.kind ≠ .restricted then false
  else
    match toLegacySandboxPolicy host cwd policy network with
    | .error _ => true
    | .ok legacyPolicy =>
      if protectedMetadataNamesNeedDirectRuntimeEnforcement host cwd windowsJoin policy legacyPolicy
      then true
      else
        semanticSignature host cwd windowsJoin policy ≠ semanticSignature host cwd windowsJoin
            (legacyRuntimeFileSystemPolicyForCwd cwd legacyPolicy)

end

end OpenInterpreter.LegacyPolicy
