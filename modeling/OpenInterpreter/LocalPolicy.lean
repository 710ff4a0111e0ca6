import OpenInterpreter.Chunks
import OpenInterpreter.LocalPaths
import OpenInterpreter.PolicyPlaces

/-! The native-path adapters of a policy on a POSIX host, and its writable roots. No path of the
host is a symbolic link, `/tmp` is a directory, and no `.git`, `.agents` or `.codex` exists, so
effective paths are the paths themselves. -/

namespace OpenInterpreter.LocalPolicy

open ExecutorPath SandboxAccess PolicyPlaces LocalPaths List

structure Host where
  homeDirectory : Option HostPath
  tmpdir : Option HostPath

def slashTmp : HostPath := ⟨["tmp"], by decide⟩

section

variable (host : Host) (cwd : HostPath)

def localContext : FileSystemSandboxPolicyContext where
  cwd := fromAbsPath cwd
  workspaceRoots := [fromAbsPath cwd]
  temporaryDirectories := some (host.tmpdir.map fromAbsPath).toList

def resolveEntryPath : FileSystemPath → Option HostPath
  | .special .root => some HostPath.root
  | .path path => toAbsPath path
  | .globPattern _ => none
  | .special (.projectRoots subpath) =>
    match subpath with
    | some subpath => some (resolvePathAgainstBase host.homeDirectory subpath cwd)
    | none => some cwd
  | .special .tmpdir => host.tmpdir
  | .special .slashTmp => some slashTmp
  | .special .minimal | .special (.unknown _ _) => none

abbrev ResolvedFileSystemEntry := HostPath × FileSystemAccessMode

def resolvedEntriesWithCwd (policy : FileSystemSandboxPolicy) : List ResolvedFileSystemEntry :=
  policy.entries.filterMap fun entry =>
    (resolveEntryPath host cwd entry.path).map fun path => (path, entry.access)

variable (windowsJoin : PathUri → String → Option PathUri)

def canReadLocalPathWithCwd (policy : FileSystemSandboxPolicy) (path : HostPath) : Bool :=
  (resolveAccess windowsJoin policy (fromAbsPath path) (localContext host cwd)).canRead

def canWriteLocalPathWithCwd (policy : FileSystemSandboxPolicy) (path : HostPath) : Bool :=
  canWritePath windowsJoin policy (fromAbsPath path) (localContext host cwd)

end

def hasFullDiskWriteAccess (policy : FileSystemSandboxPolicy) : Bool :=
  hasFullDiskWriteAccessForConvention policy (some .posix)

structure WritableRoot where
  root : HostPath
  readOnlySubpaths : List HostPath
  protectedMetadataNames : List String
  deriving DecidableEq

namespace WritableRoot

def pathContainsProtectedMetadataName (writableRoot : WritableRoot) (path : HostPath) : Bool :=
  if path.startsWith writableRoot.root then
    match (path.components.drop writableRoot.root.components.length).head? with
    | none => false
    | some first => writableRoot.protectedMetadataNames.contains first
  else false

def isPathWritable (writableRoot : WritableRoot) (path : HostPath) : Bool :=
  if !path.startsWith writableRoot.root then false
  else if writableRoot.readOnlySubpaths.any fun subpath => path.startsWith subpath then false
  else !writableRoot.pathContainsProtectedMetadataName path

end WritableRoot

/-- `AbsolutePathBuf::join` with the name of an entry. -/
def joinName (base : HostPath) (name : String) : HostPath := base.normalize name.toList

def defaultReadOnlySubpathsForWritableRoot (writableRoot : HostPath)
    (protectMissingDotCodex : Bool) : List HostPath :=
  if protectMissingDotCodex then [joinName writableRoot ".codex"] else []

def dedupAbsolutePaths (paths : List HostPath) : List HostPath := paths.eraseDups

def hasExplicitResolvedPathEntry (entries : List ResolvedFileSystemEntry) (path : HostPath) : Bool :=
  entries.any fun entry => entry.1 = path

section

variable (host : Host) (cwd : HostPath) (windowsJoin : PathUri → String → Option PathUri)
  (policy : FileSystemSandboxPolicy)

/-- `protected_metadata_names_for_writable_root`, for the root and the raw paths of its entries. -/
def protectedMetadataNamesForWritableRoot (root : HostPath) (rawWritableRoots : List HostPath) :
    List String :=
  protectedMetadataPathNames.filter fun metadataName =>
    (root :: rawWritableRoots).all fun base =>
      !canWriteLocalPathWithCwd host cwd windowsJoin policy (joinName base metadataName)

def carveoutPath (root path : HostPath) : Option HostPath :=
  if path = root ∨ !path.startsWith root then none else some path

def effectiveEntries : List ResolvedFileSystemEntry :=
  (resolvedEntriesWithCwd host cwd policy).filter fun entry =>
    entry.2.canWrite = canWriteLocalPathWithCwd host cwd windowsJoin policy entry.1

def writableEntries : List HostPath :=
  ((effectiveEntries host cwd windowsJoin policy).filter fun entry => entry.2.canWrite).map Prod.fst

def writableRootFor (root : HostPath) : WritableRoot where
  root := root
  readOnlySubpaths := dedupAbsolutePaths
    ((defaultReadOnlySubpathsForWritableRoot root (cwd = root)).filter (fun path =>
      !hasExplicitResolvedPathEntry (resolvedEntriesWithCwd host cwd policy) path) ++
    ((effectiveEntries host cwd windowsJoin policy).filter fun entry =>
      !entry.2.canWrite).filterMap fun entry => carveoutPath root entry.1)
  protectedMetadataNames := protectedMetadataNamesForWritableRoot host cwd windowsJoin policy root
    ((writableEntries host cwd windowsJoin policy).filter fun path => path = root)

def getWritableRootsWithCwd : List WritableRoot :=
  if hasFullDiskWriteAccess policy then []
  else
    (dedupAbsolutePaths (writableEntries host cwd windowsJoin policy)).map
      (writableRootFor host cwd windowsJoin policy)

end

def PlainSubpath (subpath : String) : Prop :=
  '\x00' ∉ subpath.toList ∧ subpath.toList.head? ≠ some '/' ∧ subpath.toList ≠ ['~'] ∧
    subpath.toList.take 2 ≠ ['~', '/']

def PosixPath : FileSystemPath → Prop
  | .path uri => ∃ path, uri = fromAbsPath path
  | .special (.projectRoots (some subpath)) => PlainSubpath subpath
  | _ => True

structure PosixPolicy (policy : FileSystemSandboxPolicy) : Prop where
  kind : policy.kind = .restricted
  paths : ∀ entry ∈ policy.entries, PosixPath entry.path

def hostRules (entries : List ResolvedFileSystemEntry) : AccessRules :=
  entries.filterMap fun entry => (hostPlace entry.1).map fun place => (place, entry.2)

theorem clean_splitSegments {text : List Char} (unterminated : '\x00' ∉ text) :
    ∀ segment ∈ splitSegments text, '/' ∉ segment.toList ∧ '\x00' ∉ segment.toList := by
  intro segment member
  obtain ⟨part, found, rfl⟩ := mem_map.mp member
  rw [String.toList_ofList]
  have parts := Chunks.mem_splitOn found
  exact ⟨parts.1, fun null => unterminated (parts.2 null)⟩

section

variable {host : Host} {cwd : HostPath} {windowsJoin : PathUri → String → Option PathUri}

theorem places_of_paths (paths : List HostPath) :
    (((paths.map fromAbsPath).filter fun uri => inferPathConvention uri = some .posix).filterMap
      placeOf) = paths.filterMap hostPlace := by
  have all : ∀ uri ∈ paths.map fromAbsPath,
      decide (inferPathConvention uri = some .posix) = true := by
    intro uri member
    obtain ⟨path, _, rfl⟩ := mem_map.mp member
    exact decide_eq_true (inferPathConvention_fromAbsPath path)
  have same : placeOf ∘ fromAbsPath = hostPlace := funext placeOf_fromAbsPath
  rw [filter_eq_self.mpr all, filterMap_map, same]

theorem places_of_url (path : HostPath) :
    (([PathUri.url none path.components].filter fun uri =>
      inferPathConvention uri = some .posix).filterMap placeOf) = [path].filterMap hostPlace := by
  cases driven : path.driven with
  | true =>
    have windows : urlConvention none path.components = .windows := by
      simp only [HostPath.driven] at driven
      simp [urlConvention, driven]
    simp [inferPathConvention, windows, hostPlace, driven]
  | false =>
    rw [← fromAbsPath_of_not_driven path driven]
    exact places_of_paths [path]

section

variable (undriven : cwd.driven = false)
include undriven

theorem join_plain {subpath : String} (plain : PlainSubpath subpath) (home : Option HostPath) :
    join windowsJoin (fromAbsPath cwd) subpath =
      some (.url none (resolvePathAgainstBase home subpath cwd).components) := by
  obtain ⟨unterminated, unrooted, notHome, notBelowHome⟩ := plain
  have resolved : resolvePathAgainstBase home subpath cwd = cwd.normalize subpath.toList := by
    unfold resolvePathAgainstBase
    split
    · rename_i only
      exact absurd only notHome
    · rename_i below
      rw [below] at notBelowHome
      exact absurd rfl notBelowHome
    · rename_i rooted
      rw [rooted] at unrooted
      exact absurd rfl unrooted
    · rfl
  have components : (cwd.normalize subpath.toList).components =
      (splitSegments subpath.toList).foldl pushSegment cwd.components :=
    components_foldl_push cwd (clean_splitSegments unterminated)
  have posix := inferPathConvention_fromAbsPath cwd
  rw [fromAbsPath_of_not_driven cwd undriven] at posix ⊢
  rw [resolved, components]
  unfold join
  rw [if_neg (by simpa using unterminated)]
  by_cases empty : subpath = ""
  · rw [empty]
    simp [splitSegments, pushSegment]
  · rw [if_neg empty, posix]
    simp only
    split
    · rename_i rooted
      rw [rooted] at unrooted
      exact absurd rfl unrooted
    · rename_i shape _
      cases shape
    · rename_i shape _
      cases shape
      rfl

theorem fileSystemRoot_local :
    fileSystemRoot (localContext host cwd) = some (fromAbsPath HostPath.root) := by
  have deep : (lexicalDepth (fromAbsPath cwd)).isSome = true := by
    rw [lexicalDepth_eq, placeOf_fromAbsPath, hostPlace, undriven]
    rfl
  have posix := inferPathConvention_fromAbsPath cwd
  rw [fromAbsPath_of_not_driven cwd undriven] at deep posix
  have plain : urlConvention none cwd.components = .posix := Option.some.inj posix
  simp only [fileSystemRoot, localContext, fromAbsPath_of_not_driven cwd undriven, deep,
    rootOf, plain]
  rfl

theorem resolvedPaths_native {path : FileSystemPath} (posix : PosixPath path) :
    resolvedPaths windowsJoin (localContext host cwd) path =
        (resolveEntryPath host cwd path).toList.map fromAbsPath ∨
      ∃ target, resolveEntryPath host cwd path = some target ∧
        resolvedPaths windowsJoin (localContext host cwd) path = [.url none target.components] := by
  cases path with
  | path uri =>
    obtain ⟨path, rfl⟩ := posix
    rw [resolveEntryPath, toAbsPath_fromAbsPath]
    exact .inl rfl
  | globPattern pattern => exact .inl rfl
  | special value =>
    cases value with
    | root =>
      rw [resolvedPaths, fileSystemRoot_local undriven]
      exact .inl rfl
    | projectRoots subpath =>
      cases subpath with
      | none => exact .inl rfl
      | some subpath =>
        refine .inr ⟨_, rfl, ?_⟩
        simp [resolvedPaths, localContext, join_plain undriven posix host.homeDirectory]
    | tmpdir =>
      rw [localContext, resolveEntryPath]
      cases host.tmpdir <;> exact .inl rfl
    | slashTmp =>
      have convention : inferPathConvention (localContext host cwd).cwd = some .posix :=
        inferPathConvention_fromAbsPath cwd
      rw [resolvedPaths]
      unfold join
      simp only [convention]
      exact .inl rfl
    | minimal | unknown => exact .inl rfl

variable {entry : FileSystemSandboxEntry}

theorem places_of_entry (posix : PosixPath entry.path) :
    (entryPaths windowsJoin (localContext host cwd) entry).filterMap placeOf =
      (resolveEntryPath host cwd entry.path).toList.filterMap hostPlace := by
  have convention : inferPathConvention (localContext host cwd).cwd = some .posix :=
    inferPathConvention_fromAbsPath cwd
  rw [entryPaths, convention]
  cases resolvedPaths_native undriven posix with
  | inl native =>
    rw [native]
    exact places_of_paths _
  | inr written =>
    obtain ⟨target, resolved, shape⟩ := written
    rw [resolved, shape]
    exact places_of_url target

theorem exists_of_mem_entryPaths (posix : PosixPath entry.path)
    {uri : PathUri} (member : uri ∈ entryPaths windowsJoin (localContext host cwd) entry) :
    ∃ path, uri = fromAbsPath path := by
  obtain ⟨listed, kept⟩ := mem_filter.mp member
  cases resolvedPaths_native undriven posix with
  | inl native =>
    rw [native] at listed
    obtain ⟨path, _, same⟩ := mem_map.mp listed
    exact ⟨path, same.symm⟩
  | inr written =>
    obtain ⟨target, _, shape⟩ := written
    rw [shape] at listed
    cases mem_singleton.mp listed
    have convention := of_decide_eq_true kept
    rw [show inferPathConvention (localContext host cwd).cwd = some .posix from
      inferPathConvention_fromAbsPath cwd] at convention
    exact ⟨target, by rw [fromAbsPath, if_pos convention]⟩

variable {policy : FileSystemSandboxPolicy}

theorem clear_local (posix : PosixPolicy policy) :
    Clear (resolvedEntries windowsJoin policy (localContext host cwd)) := by
  rintro ⟨uri, access⟩ member placeless
  obtain ⟨entry, listed, found⟩ := mem_flatMap.mp member
  obtain ⟨other, inside, same⟩ := mem_map.mp found
  cases same
  obtain ⟨path, rfl⟩ := exists_of_mem_entryPaths undriven (posix.paths entry listed) inside
  exact isOpaque_of_placeless path placeless

theorem rulesOf_local (posix : PosixPolicy policy) :
    rulesOf windowsJoin policy (localContext host cwd) =
      hostRules (resolvedEntriesWithCwd host cwd policy) := by
  have paths := posix.paths
  rw [rulesOf, resolvedEntries, resolvedEntriesWithCwd]
  generalize policy.entries = entries at paths ⊢
  induction entries with
  | nil => rfl
  | cons entry rest ih =>
    have uriRules : placeRules ((entryPaths windowsJoin (localContext host cwd) entry).map
        fun path => (path, entry.access)) =
        ((entryPaths windowsJoin (localContext host cwd) entry).filterMap placeOf).map
          fun place => (place, entry.access) := by
      rw [placeRules, filterMap_map, map_filterMap]
      rfl
    have later := ih fun other member => paths other (mem_cons_of_mem _ member)
    rw [placeRules] at later uriRules ⊢
    rw [flatMap_cons, filterMap_append, later, uriRules,
      places_of_entry undriven (paths entry mem_cons_self), filterMap_cons]
    cases resolveEntryPath host cwd entry.path with
    | none => rfl
    | some path =>
      cases placed : hostPlace path <;> simp [hostRules, placed]

end

end

end OpenInterpreter.LocalPolicy
