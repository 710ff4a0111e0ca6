import OpenInterpreter.LegacyPolicy
import OpenInterpreter.WritableRoots

/-! The semantic signature determines which paths a policy lets read and write. -/

namespace OpenInterpreter.SemanticEquivalence

open Bool
open List ExecutorPath SandboxAccess LocalPaths LocalPolicy LocalAccess WritableRoots LegacyPolicy

/-- The deepest writable root over the path lets it through. A missing `.codex` of the working
directory does not count: only the protected names say whether it is writable. -/
def WritableFrom (roots : List WritableRoot) (cwd path : HostPath) : Prop :=
  ∃ writableRoot ∈ roots, path.startsWith writableRoot.root = true ∧
    (∀ other ∈ roots, path.startsWith other.root = true →
      writableRoot.root.startsWith other.root = true) ∧
    (∀ subpath ∈ writableRoot.readOnlySubpaths, path.startsWith subpath = true →
      writableRoot.root = cwd ∧ subpath = joinName cwd ".codex") ∧
    ∀ name ∈ writableRoot.protectedMetadataNames,
      ¬ path.startsWith (joinName writableRoot.root name) = true

variable {host : Host} {cwd : HostPath} {windowsJoin : PathUri → String → Option PathUri}
  {policy : FileSystemSandboxPolicy} {path : HostPath}

section

variable (spec : WriteCheck (resolvedEntriesWithCwd host cwd policy)
    (canWriteLocalPathWithCwd host cwd windowsJoin policy))
include spec

theorem mem_getWritableRoots
    (partially : hasFullDiskWriteAccess policy = false) {writableRoot : WritableRoot} :
    writableRoot ∈ getWritableRootsWithCwd host cwd windowsJoin policy ↔
      ∃ root, Live (resolvedEntriesWithCwd host cwd policy) root ∧
        writableRootFor host cwd windowsJoin policy root = writableRoot := by
  rw [getWritableRootsWithCwd, partially, if_neg (by decide)]
  simp [dedupAbsolutePaths, mem_writableEntries spec]

variable (undriven : path.driven = false)
include undriven

theorem writableFrom_of_canWrite
    (partially : hasFullDiskWriteAccess policy = false)
    (allowed : canWriteLocalPathWithCwd host cwd windowsJoin policy path = true) :
    WritableFrom (getWritableRootsWithCwd host cwd windowsJoin policy) cwd path := by
  obtain ⟨root, deepest, live, free⟩ := (spec.ordinary path undriven).mp allowed
  refine ⟨writableRootFor host cwd windowsJoin policy root,
    (mem_getWritableRoots spec partially).mpr ⟨root, live, rfl⟩, deepest.covers, ?_, ?_, ?_⟩
  · intro other member below
    obtain ⟨otherRoot, otherLive, rfl⟩ := (mem_getWritableRoots spec partially).mp member
    exact deepest.deepest _ otherLive.granted below
  · intro subpath member below
    cases (mem_readOnlySubpaths spec).mp member with
    | inl missing =>
      obtain ⟨rfl, rfl, _⟩ := missing
      exact ⟨rfl, rfl⟩
    | inr entry =>
      obtain ⟨access, listed, _, _, above, apart⟩ := entry
      exact absurd (HostPath.startsWith_antisymm above (deepest.deepest _ listed below)) apart
  · intro name member below
    obtain ⟨protectedName, shut⟩ := mem_protectedMetadataNames.mp member
    have unlisted := unlisted_of_reserved deepest protectedName below
    exact free ⟨(spec.shut_metadata live protectedName unlisted).mp shut,
      any_eq_true.mpr ⟨name, protectedName, below⟩⟩

theorem live_of_writableFrom
    {root deep : HostPath}
    (readOnly : ∀ subpath ∈ (writableRootFor host cwd windowsJoin policy root).readOnlySubpaths,
      path.startsWith subpath = true → root = cwd ∧ subpath = joinName cwd ".codex")
    (names : ∀ name ∈ (writableRootFor host cwd windowsJoin policy root).protectedMetadataNames,
      ¬ path.startsWith (joinName root name) = true)
    (deepest : Deepest (resolvedEntriesWithCwd host cwd policy) path deep)
    (above : deep.startsWith root = true) (apart : deep ≠ root) :
    Live (resolvedEntriesWithCwd host cwd policy) deep := by
  by_contra dead
  obtain ⟨access, listed⟩ := deepest.listed
  obtain ⟨other, otherListed, narrows⟩ := exists_narrowing listed
    (HostPath.undriven_of_startsWith deepest.covers undriven) dead
  have carved := (mem_readOnlySubpaths spec).mpr
    (.inr ⟨other, otherListed, narrows, dead, above, apart⟩)
  obtain ⟨rooted, codex⟩ := readOnly deep carved deepest.covers
  have atRoot : deep = joinName root ".codex" := by
    rw [rooted]
    exact codex
  have shut : canWriteLocalPathWithCwd host cwd windowsJoin policy deep = false :=
    eq_false_iff.mpr fun allowed => dead ((spec.at_listed listed).mp allowed)
  have covers := deepest.covers
  rw [atRoot] at shut covers
  exact names ".codex" (mem_protectedMetadataNames.mpr ⟨by decide, shut⟩) covers

theorem canWrite_of_writableFrom
    (partially : hasFullDiskWriteAccess policy = false)
    (writable : WritableFrom (getWritableRootsWithCwd host cwd windowsJoin policy) cwd path) :
    canWriteLocalPathWithCwd host cwd windowsJoin policy path = true := by
  obtain ⟨writableRoot, member, below, deeper, readOnly, names⟩ := writable
  obtain ⟨root, live, rfl⟩ := (mem_getWritableRoots spec partially).mp member
  obtain ⟨deep, deepest⟩ := exists_deepest undriven live.granted below
  have above : deep.startsWith root = true := deepest.deepest _ live.granted below
  have same : deep = root := by
    by_contra apart
    have alive := live_of_writableFrom spec undriven readOnly names deepest above apart
    have found := (mem_getWritableRoots spec partially).mpr ⟨deep, alive, rfl⟩
    exact apart (HostPath.startsWith_antisymm above (deeper _ found deepest.covers))
  rw [same] at deepest
  apply (spec.at_deepest undriven deepest).mpr
  refine ⟨live, ?_⟩
  rintro ⟨first, inside⟩
  obtain ⟨name, protectedName, covers⟩ := any_eq_true.mp inside
  have unlisted := unlisted_of_reserved deepest protectedName covers
  have shut := (spec.shut_metadata live protectedName unlisted).mpr first
  exact names name (mem_protectedMetadataNames.mpr ⟨protectedName, shut⟩) covers

end

theorem canWrite_iff_writableFrom (undrivenCwd : cwd.driven = false) (posix : PosixPolicy policy)
    (partially : hasFullDiskWriteAccess policy = false) (undriven : path.driven = false) :
    canWriteLocalPathWithCwd host cwd windowsJoin policy path = true ↔
      WritableFrom (getWritableRootsWithCwd host cwd windowsJoin policy) cwd path := by
  have spec : WriteCheck (resolvedEntriesWithCwd host cwd policy)
      (canWriteLocalPathWithCwd host cwd windowsJoin policy) :=
    writeCheck_local undrivenCwd posix partially
  constructor
  · exact writableFrom_of_canWrite spec undriven partially
  · exact canWrite_of_writableFrom spec undriven partially

theorem writableFrom_sorted {roots : List WritableRoot} {cwd path : HostPath} :
    WritableFrom (sortedWritableRoots roots) cwd path ↔ WritableFrom roots cwd path := by
  simp [WritableFrom, sortedWritableRoots, sortedAbsolutePaths]

def ReadableFrom (readable unreadable : List HostPath) (path : HostPath) : Prop :=
  ∃ root ∈ readable, path.startsWith root = true ∧
    ∀ other, other ∈ readable ∨ other ∈ unreadable → path.startsWith other = true →
      root.startsWith other = true

variable {access : FileSystemAccessMode}

section

variable (undrivenCwd : cwd.driven = false) (posix : PosixPolicy policy)
include undrivenCwd posix

theorem canRead_listed (listed : (path, access) ∈ resolvedEntriesWithCwd host cwd policy) :
    canReadLocalPathWithCwd host cwd windowsJoin policy path = true ↔
      path.driven = false ∧ (path, .deny) ∉ resolvedEntriesWithCwd host cwd policy := by
  cases driven : path.driven with
  | true => simp [canRead_driven posix.kind (.inl driven)]
  | false =>
    rw [canRead_iff undrivenCwd posix driven]
    constructor
    · rintro ⟨root, deepest, undenied⟩
      rw [deepest.unique (deepest_self listed)] at undenied
      exact ⟨rfl, undenied⟩
    · rintro ⟨_, undenied⟩
      exact ⟨path, deepest_self listed, undenied⟩

theorem mem_getReadableRoots (partially : hasFullDiskReadAccess policy = false) :
    path ∈ getReadableRootsWithCwd host cwd windowsJoin policy ↔
      (∃ access, (path, access) ∈ resolvedEntriesWithCwd host cwd policy) ∧ path.driven = false ∧
        (path, .deny) ∉ resolvedEntriesWithCwd host cwd policy := by
  rw [getReadableRootsWithCwd, partially, if_neg (by decide), dedupAbsolutePaths,
    mem_eraseDups, mem_map]
  constructor
  · rintro ⟨⟨root, access⟩, member, rfl⟩
    obtain ⟨listed, reads⟩ := mem_filter.mp member
    have readable := (and_eq_true_iff.mp reads).2
    exact ⟨⟨access, listed⟩, (canRead_listed undrivenCwd posix listed).mp readable⟩
  · rintro ⟨⟨access, listed⟩, ordinary⟩
    refine ⟨(path, access), mem_filter.mpr ⟨listed, and_eq_true_iff.mpr ⟨?_, ?_⟩⟩, rfl⟩
    · have reads : access ≠ .deny := fun denies => ordinary.2 (denies ▸ listed)
      exact decide_eq_true reads
    · exact (canRead_listed undrivenCwd posix listed).mpr ordinary

theorem mem_getUnreadableRoots :
    path ∈ getUnreadableRootsWithCwd host cwd windowsJoin policy ↔
      (path, .deny) ∈ resolvedEntriesWithCwd host cwd policy ∧ HostPath.root ≠ path := by
  rw [getUnreadableRootsWithCwd, if_neg (not_not.mpr posix.kind), dedupAbsolutePaths,
    mem_eraseDups, mem_map]
  constructor
  · rintro ⟨⟨root, access⟩, member, rfl⟩
    obtain ⟨listed, kept⟩ := mem_filter.mp member
    simp only [and_eq_true, decide_eq_true_eq] at kept
    exact ⟨kept.1.1 ▸ listed, kept.2⟩
  · rintro ⟨denied, apart⟩
    refine ⟨(path, .deny), mem_filter.mpr ⟨denied, ?_⟩, rfl⟩
    have shut : canReadLocalPathWithCwd host cwd windowsJoin policy path = false :=
      eq_false_iff.mpr fun readable =>
        ((canRead_listed undrivenCwd posix denied).mp readable).2 denied
    simp [shut, apart]

theorem canRead_iff_readableFrom
    (partially : hasFullDiskReadAccess policy = false) (undriven : path.driven = false) :
    canReadLocalPathWithCwd host cwd windowsJoin policy path = true ↔
      ReadableFrom (getReadableRootsWithCwd host cwd windowsJoin policy)
        (getUnreadableRootsWithCwd host cwd windowsJoin policy) path := by
  rw [canRead_iff undrivenCwd posix undriven]
  constructor
  · rintro ⟨root, deepest, undenied⟩
    have ordinary := HostPath.undriven_of_startsWith deepest.covers undriven
    refine ⟨root, (mem_getReadableRoots undrivenCwd posix partially).mpr
      ⟨deepest.listed, ordinary, undenied⟩, deepest.covers, ?_⟩
    rintro other (readable | unreadable) below
    · obtain ⟨⟨access, listed⟩, _⟩ := (mem_getReadableRoots undrivenCwd posix partially).mp readable
      exact deepest.deepest _ listed below
    · obtain ⟨listed, _⟩ := (mem_getUnreadableRoots undrivenCwd posix).mp unreadable
      exact deepest.deepest _ listed below
  · rintro ⟨root, member, covers, deeper⟩
    obtain ⟨listed, _, undenied⟩ := (mem_getReadableRoots undrivenCwd posix partially).mp member
    refine ⟨root, ⟨listed, covers, ?_⟩, undenied⟩
    rintro ⟨other, access⟩ otherListed below
    by_cases denied : (other, .deny) ∈ resolvedEntriesWithCwd host cwd policy
    · by_cases top : HostPath.root = other
      · rw [← top]
        exact HostPath.startsWith_iff.mpr nil_prefix
      · exact deeper other (.inr ((mem_getUnreadableRoots undrivenCwd posix).mpr ⟨denied, top⟩)) below
    · have ordinary := HostPath.undriven_of_startsWith below undriven
      exact deeper other (.inl ((mem_getReadableRoots undrivenCwd posix partially).mpr
        ⟨⟨access, otherListed⟩, ordinary, denied⟩)) below

end

theorem mem_resolvedEntries :
    (path, access) ∈ resolvedEntriesWithCwd host cwd policy ↔
      ∃ entry ∈ policy.entries, resolveEntryPath host cwd entry.path = some path ∧
        entry.access = access := by
  rw [resolvedEntriesWithCwd, mem_filterMap]
  constructor
  · rintro ⟨entry, member, mapped⟩
    obtain ⟨root, resolved, same⟩ := Option.map_eq_some_iff.mp mapped
    cases same
    exact ⟨entry, member, resolved, rfl⟩
  · rintro ⟨entry, member, resolved, rfl⟩
    exact ⟨entry, member, by rw [resolved]; rfl⟩

theorem root_listed {predicate : FileSystemAccessMode → Bool}
    (granted : hasRootAccess policy.entries predicate = true) :
    ∃ access, predicate access = true ∧
      (HostPath.root, access) ∈ resolvedEntriesWithCwd host cwd policy := by
  obtain ⟨entry, member, matched⟩ := any_eq_true.mp granted
  have parts := of_decide_eq_true matched
  refine ⟨entry.access, parts.2, mem_resolvedEntries.mpr ⟨entry, member, ?_, rfl⟩⟩
  rw [parts.1]
  rfl

theorem startsWith_root (path : HostPath) : path.startsWith HostPath.root = true :=
  HostPath.startsWith_iff.mpr nil_prefix

theorem canRead_of_fullDisk (undrivenCwd : cwd.driven = false) (posix : PosixPolicy policy)
    (full : hasFullDiskReadAccess policy = true) (undriven : path.driven = false) :
    canReadLocalPathWithCwd host cwd windowsJoin policy path = true := by
  simp only [hasFullDiskReadAccess, posix.kind, and_eq_true, not_eq_true'] at full
  obtain ⟨access, _, listed⟩ := root_listed full.1
  obtain ⟨root, deepest⟩ := exists_deepest undriven listed (startsWith_root path)
  refine (canRead_iff undrivenCwd posix undriven).mpr ⟨root, deepest, ?_⟩
  intro denied
  obtain ⟨entry, member, _, denies⟩ := mem_resolvedEntries.mp denied
  exact any_eq_false.mp full.2 entry member (decide_eq_true denies)

theorem eq_of_fromAbsPath {left right : HostPath} (same : fromAbsPath left = fromAbsPath right) :
    left = right := by
  have paths := congrArg toAbsPath same
  rw [toAbsPath_fromAbsPath, toAbsPath_fromAbsPath] at paths
  exact Option.some.inj paths

theorem eq_of_sameUri {left right : HostPath}
    (same : sameUri (fromAbsPath left) (fromAbsPath right) = true) : left = right := by
  have nameless : windowsIdentity (fromAbsPath left) = none := by
    have posix := inferPathConvention_fromAbsPath left
    cases shape : fromAbsPath left with
    | fallback convention native => rfl
    | url host segments =>
      rw [shape] at posix
      have kind : urlConvention host segments = .posix := Option.some.inj posix
      simp [windowsIdentity, kind]
  rw [sameUri, nameless] at same
  split at same
  · rename_i equal
    exact eq_of_fromAbsPath equal
  · cases same

theorem resolve_of_match {value : FileSystemSpecialPath} {target : HostPath}
    (matched : specialPathMatchesPathUri value (fromAbsPath target) = true) :
    resolveEntryPath host cwd (.special value) = some target := by
  cases value with
  | root =>
    cases driven : target.driven with
    | true =>
      rw [fromAbsPath_of_driven target driven] at matched
      cases matched
    | false =>
      have posix := inferPathConvention_fromAbsPath target
      rw [fromAbsPath_of_not_driven target driven] at matched posix
      have kind : urlConvention none target.components = .posix := Option.some.inj posix
      have parts := of_decide_eq_true matched
      rw [rootOf, kind] at parts
      have empty : [] = target.components := (PathUri.url.inj parts.2).2
      exact congrArg some (HostPath.ext empty)
  | slashTmp =>
    have parts := of_decide_eq_true matched
    exact congrArg some (eq_of_fromAbsPath parts.2.2).symm
  | minimal | projectRoots | tmpdir | unknown => cases matched

theorem resolve_of_shareTarget {left right : FileSystemPath} (leftPosix : PosixPath left)
    (rightPosix : PosixPath right) (shared : fileSystemPathsShareTarget left right .posix = true) :
    resolveEntryPath host cwd left = resolveEntryPath host cwd right := by
  cases left with
  | path leftUri =>
    obtain ⟨leftPath, rfl⟩ := leftPosix
    cases right with
    | path rightUri =>
      obtain ⟨rightPath, rfl⟩ := rightPosix
      rw [eq_of_sameUri shared]
    | globPattern pattern => cases shared
    | special value =>
      rw [resolve_of_match (of_decide_eq_true shared).2, resolveEntryPath, toAbsPath_fromAbsPath]
  | globPattern leftPattern =>
    cases right with
    | path | special => cases shared
    | globPattern pattern => rfl
  | special leftValue =>
    cases right with
    | path rightUri =>
      obtain ⟨rightPath, rfl⟩ := rightPosix
      rw [resolve_of_match (of_decide_eq_true shared).2, resolveEntryPath, toAbsPath_fromAbsPath]
    | globPattern pattern => cases shared
    | special value => rw [of_decide_eq_true shared]

theorem write_of_override (posix : PosixPolicy policy) {entry : FileSystemSandboxEntry}
    (member : entry ∈ policy.entries) (resolved : resolveEntryPath host cwd entry.path = some path)
    (override : hasSameTargetWriteOverride policy.entries entry .posix = true) :
    entry.access ≠ .deny ∧ (path, .write) ∈ resolvedEntriesWithCwd host cwd policy := by
  obtain ⟨candidate, found, matched⟩ := any_eq_true.mp override
  obtain ⟨writes, greater, shared⟩ := of_decide_eq_true matched
  have kind : candidate.access = .write := of_decide_eq_true writes
  rw [kind] at greater
  constructor
  · intro denies
    rw [denies] at greater
    exact absurd greater (by decide)
  · refine mem_resolvedEntries.mpr ⟨candidate, found, ?_, kind⟩
    rw [resolve_of_shareTarget (posix.paths _ found) (posix.paths _ member) shared, resolved]

section

variable (full : hasFullDiskWriteAccess policy = true) (posix : PosixPolicy policy)
include full posix

theorem write_of_fullDisk
    (listed : (path, access) ∈ resolvedEntriesWithCwd host cwd policy) :
    access ≠ .deny ∧ (path, .write) ∈ resolvedEntriesWithCwd host cwd policy := by
  simp only [hasFullDiskWriteAccess, hasFullDiskWriteAccessForConvention, posix.kind,
    Option.any_some, and_eq_true, not_eq_true'] at full
  obtain ⟨entry, member, resolved, rfl⟩ := mem_resolvedEntries.mp listed
  have wide : narrowsWrite policy.entries .posix entry = false :=
    eq_false_iff.mpr (any_eq_false.mp full.2 entry member)
  rw [narrowsWrite] at wide
  split at wide
  · rename_i writes
    have kind : entry.access = .write := of_decide_eq_true writes
    rw [kind] at listed ⊢
    exact ⟨nofun, listed⟩
  · have overridden : ∀ {bit}, (!bit) = false → bit = true := by simp
    split at wide
    · exact write_of_override posix member resolved (overridden wide)
    · cases wide
    · rename_i shape
      rw [shape] at resolved
      cases resolved
      obtain ⟨rootAccess, writes, rootListed⟩ := root_listed full.1
      have kind : rootAccess = .write := of_decide_eq_true writes
      rw [kind] at rootListed
      exact ⟨of_decide_eq_false wide, rootListed⟩
    · exact write_of_override posix member resolved (overridden wide)
    · rename_i shape
      rw [shape] at resolved
      cases resolved
    · rename_i shape
      rw [shape] at resolved
      cases resolved
    · exact write_of_override posix member resolved (overridden wide)

theorem access_of_fullDisk (undrivenCwd : cwd.driven = false)
    (undriven : path.driven = false) :
    resolveAccess windowsJoin policy (fromAbsPath path) (localContext host cwd) = .write := by
  have granted := full
  simp only [hasFullDiskWriteAccess, hasFullDiskWriteAccessForConvention, posix.kind,
    Option.any_some, and_eq_true] at granted
  obtain ⟨_, _, rootListed⟩ := root_listed granted.1
  obtain ⟨root, deepest⟩ := exists_deepest undriven rootListed (startsWith_root path)
  obtain ⟨access, listed⟩ := deepest.listed
  have strongest : Strongest (resolvedEntriesWithCwd host cwd policy) root .write := by
    refine ⟨(write_of_fullDisk full posix listed).2, ?_⟩
    intro other found
    cases other with
    | read | write => decide
    | deny => exact absurd rfl (write_of_fullDisk full posix found).1
  rw [access_local undrivenCwd posix undriven,
    PrefixRules.resolve_eq_some.mpr ((decides_iff undriven).mpr ⟨root, deepest, strongest⟩)]
  rfl

theorem canWrite_of_fullDisk (undrivenCwd : cwd.driven = false)
    (undriven : path.driven = false) :
    canWriteLocalPathWithCwd host cwd windowsJoin policy path = true := by
  have context : hasFullDiskWriteAccessWithContext policy (localContext host cwd) = true := by
    rw [hasFullDiskWriteAccessWithContext, localContext, inferPathConvention_fromAbsPath]
    exact full
  rw [canWriteLocalPathWithCwd, canWritePath, access_of_fullDisk full posix undrivenCwd undriven,
    context]
  rfl

end

def SameGrants (host : Host) (cwd : HostPath) (windowsJoin : PathUri → String → Option PathUri)
    (left right : FileSystemSandboxPolicy) (path : HostPath) : Prop :=
  canReadLocalPathWithCwd host cwd windowsJoin left path =
      canReadLocalPathWithCwd host cwd windowsJoin right path ∧
    canWriteLocalPathWithCwd host cwd windowsJoin left path =
      canWriteLocalPathWithCwd host cwd windowsJoin right path

section

variable {left right : FileSystemSandboxPolicy}

theorem readableFrom_sorted {readable unreadable : List HostPath} :
    ReadableFrom (sortedAbsolutePaths readable) (sortedAbsolutePaths unreadable) path ↔
      ReadableFrom readable unreadable path := by
  simp [ReadableFrom, sortedAbsolutePaths]

variable (leftPosix : PosixPolicy left) (rightPosix : PosixPolicy right)
  (equal : semanticSignature host cwd windowsJoin left =
    semanticSignature host cwd windowsJoin right)
include leftPosix rightPosix equal

theorem same_reads (undrivenCwd : cwd.driven = false) (undriven : path.driven = false) :
    canReadLocalPathWithCwd host cwd windowsJoin left path =
      canReadLocalPathWithCwd host cwd windowsJoin right path := by
  have flags : hasFullDiskReadAccess left = hasFullDiskReadAccess right :=
    congrArg FileSystemSemanticSignature.hasFullDiskReadAccess equal
  cases full : hasFullDiskReadAccess left with
  | true =>
    rw [canRead_of_fullDisk undrivenCwd leftPosix full undriven,
      canRead_of_fullDisk undrivenCwd rightPosix (flags ▸ full) undriven]
  | false =>
    have readable := congrArg FileSystemSemanticSignature.readableRoots equal
    have unreadable := congrArg FileSystemSemanticSignature.unreadableRoots equal
    simp only [semanticSignature] at readable unreadable
    apply Bool.eq_iff_iff.mpr
    rw [canRead_iff_readableFrom undrivenCwd leftPosix full undriven,
      canRead_iff_readableFrom undrivenCwd rightPosix (flags ▸ full) undriven,
      ← readableFrom_sorted, readable, unreadable, readableFrom_sorted]

theorem same_writes (undrivenCwd : cwd.driven = false) (undriven : path.driven = false) :
    canWriteLocalPathWithCwd host cwd windowsJoin left path =
      canWriteLocalPathWithCwd host cwd windowsJoin right path := by
  have flags : hasFullDiskWriteAccess left = hasFullDiskWriteAccess right :=
    congrArg FileSystemSemanticSignature.hasFullDiskWriteAccess equal
  cases full : hasFullDiskWriteAccess left with
  | true =>
    rw [canWrite_of_fullDisk full leftPosix undrivenCwd undriven,
      canWrite_of_fullDisk (flags ▸ full) rightPosix undrivenCwd undriven]
  | false =>
    have roots := congrArg FileSystemSemanticSignature.writableRoots equal
    simp only [semanticSignature] at roots
    apply Bool.eq_iff_iff.mpr
    rw [canWrite_iff_writableFrom undrivenCwd leftPosix full undriven,
      canWrite_iff_writableFrom undrivenCwd rightPosix (flags ▸ full) undriven,
      ← writableFrom_sorted, roots, writableFrom_sorted]

theorem sameGrants_of_signature (path : HostPath) :
    SameGrants host cwd windowsJoin left right path := by
  by_cases driven : path.driven = true ∨ cwd.driven = true
  · constructor
    · rw [canRead_driven leftPosix.kind driven, canRead_driven rightPosix.kind driven]
    · rw [canWrite_driven leftPosix.kind driven, canWrite_driven rightPosix.kind driven]
  · obtain ⟨undriven, undrivenCwd⟩ := not_or.mp driven
    have ordinary := eq_false_iff.mpr undriven
    have ordinaryCwd := eq_false_iff.mpr undrivenCwd
    exact ⟨same_reads leftPosix rightPosix equal ordinaryCwd ordinary,
      same_writes leftPosix rightPosix equal ordinaryCwd ordinary⟩

end

variable {entries : List FileSystemSandboxEntry}

theorem posix_append (path : HostPath) (paths : ∀ entry ∈ entries, PosixPath entry.path) :
    ∀ entry ∈ appendDefaultReadOnlyPathIfNoExplicitRule entries path, PosixPath entry.path := by
  intro entry member
  rw [appendDefaultReadOnlyPathIfNoExplicitRule] at member
  split at member
  · exact paths entry member
  · cases mem_append.mp member with
    | inl old => exact paths entry old
    | inr new =>
      rw [mem_singleton.mp new]
      exact ⟨path, rfl⟩

theorem posix_foldl_append (subpaths : List HostPath)
    (paths : ∀ entry ∈ entries, PosixPath entry.path) :
    ∀ entry ∈ subpaths.foldl appendDefaultReadOnlyPathIfNoExplicitRule entries,
      PosixPath entry.path := by
  induction subpaths generalizing entries with
  | nil => exact paths
  | cons head tail ih => exact ih (posix_append head paths)

theorem posix_unless (skipped : Bool) (entry : FileSystemSandboxEntry)
    (posix : PosixPath entry.path) :
    ∀ other ∈ (if skipped then [] else [entry]), PosixPath other.path := by
  cases skipped with
  | true => exact fun _ member => absurd member not_mem_nil
  | false => exact forall_mem_singleton.mpr posix

theorem posix_legacyRuntime {legacyPolicy : SandboxPolicy}
    (kind : (legacyRuntimeFileSystemPolicyForCwd cwd legacyPolicy).kind = .restricted) :
    PosixPolicy (legacyRuntimeFileSystemPolicyForCwd cwd legacyPolicy) := by
  refine ⟨kind, ?_⟩
  cases legacyPolicy with
  | dangerFullAccess | externalSandbox => cases kind
  | readOnly networkAccess =>
    intro entry member
    rw [mem_singleton.mp member]
    trivial
  | workspaceWrite writableRoots networkAccess excludeTmpdirEnvVar excludeSlashTmp =>
    have listed : ∀ entry ∈ writableRoots.map (fun path =>
        ({ path := .path (fromAbsPath path), access := .write } : FileSystemSandboxEntry)),
        PosixPath entry.path := by
      intro entry member
      obtain ⟨path, _, rfl⟩ := mem_map.mp member
      exact ⟨path, rfl⟩
    have specials : ∀ entry ∈ [specialEntry .root .read, specialEntry (.projectRoots none) .write],
        PosixPath entry.path :=
      forall_mem_cons.mpr ⟨trivial, forall_mem_singleton.mpr trivial⟩
    have start := forall_mem_append.mpr ⟨forall_mem_append.mpr ⟨forall_mem_append.mpr ⟨specials,
        posix_unless excludeSlashTmp (specialEntry .slashTmp .write) trivial⟩,
        posix_unless excludeTmpdirEnvVar (specialEntry .tmpdir .write) trivial⟩, listed⟩
    have withCwd := posix_foldl_append (defaultReadOnlySubpathsForWritableRoot cwd true) start
    exact foldlRecOn (motive := fun entries : List FileSystemSandboxEntry =>
      ∀ entry ∈ entries, PosixPath entry.path) writableRoots _ withCwd fun entries paths root _ =>
        posix_foldl_append (defaultReadOnlySubpathsForWritableRoot root false) paths

theorem sameGrants_unrestricted (posix : PosixPolicy policy) {other : FileSystemSandboxPolicy}
    (kind : other.kind ≠ .restricted)
    (equal : semanticSignature host cwd windowsJoin policy =
      semanticSignature host cwd windowsJoin other) (undrivenCwd : cwd.driven = false)
    {path : HostPath} (undriven : path.driven = false) :
    SameGrants host cwd windowsJoin policy other path := by
  have grants : hasFullDiskWriteAccess other = true ∧
      (∀ context, hasFullDiskWriteAccessWithContext other context = true) ∧
      ∀ uri context, resolveAccess windowsJoin other uri context = .write := by
    cases shape : other.kind with
    | restricted => exact absurd shape kind
    | unrestricted | externalSandbox =>
      simp [hasFullDiskWriteAccess, hasFullDiskWriteAccessWithContext,
        hasFullDiskWriteAccessForConvention, resolveAccess, shape]
  have flags : hasFullDiskWriteAccess policy = hasFullDiskWriteAccess other :=
    congrArg FileSystemSemanticSignature.hasFullDiskWriteAccess equal
  have full := flags.trans grants.1
  constructor
  · rw [canReadLocalPathWithCwd, canReadLocalPathWithCwd,
      access_of_fullDisk full posix undrivenCwd undriven, grants.2.2]
  · rw [canWrite_of_fullDisk full posix undrivenCwd undriven, canWriteLocalPathWithCwd, canWritePath,
      grants.2.2, grants.2.1]
    rfl

theorem same_signature_of_not_needed (posix : PosixPolicy policy) {network : NetworkSandboxPolicy}
    (unneeded : needsDirectRuntimeEnforcement host cwd windowsJoin policy network = false) :
    ∃ legacyPolicy, toLegacySandboxPolicy host cwd policy network = .ok legacyPolicy ∧
      semanticSignature host cwd windowsJoin policy = semanticSignature host cwd windowsJoin
          (legacyRuntimeFileSystemPolicyForCwd cwd legacyPolicy) := by
  rw [needsDirectRuntimeEnforcement, if_neg (not_not.mpr posix.kind)] at unneeded
  split at unneeded
  · cases unneeded
  · rename_i legacyPolicy found
    split at unneeded
    · cases unneeded
    · exact ⟨legacyPolicy, found, by simpa using unneeded⟩

theorem semantic_equivalence_sound (host : Host) (cwd : HostPath)
    (windowsJoin : PathUri → String → Option PathUri) (policy other : FileSystemSandboxPolicy)
    (network : NetworkSandboxPolicy) (posix : PosixPolicy policy) (otherPosix : PosixPolicy other) :
    (isSemanticallyEquivalentTo host cwd windowsJoin policy other = true →
      ∀ path, SameGrants host cwd windowsJoin policy other path) ∧
    (needsDirectRuntimeEnforcement host cwd windowsJoin policy network = false →
      ∃ legacyPolicy, toLegacySandboxPolicy host cwd policy network = .ok legacyPolicy ∧
        ∀ path, ((legacyRuntimeFileSystemPolicyForCwd cwd legacyPolicy).kind = .restricted ∨
            cwd.driven = false ∧ path.driven = false) →
          SameGrants host cwd windowsJoin policy
            (legacyRuntimeFileSystemPolicyForCwd cwd legacyPolicy) path) := by
  constructor
  · intro equivalent path
    exact sameGrants_of_signature posix otherPosix (of_decide_eq_true equivalent) path
  · intro unneeded
    obtain ⟨legacyPolicy, found, equal⟩ := same_signature_of_not_needed posix unneeded
    refine ⟨legacyPolicy, found, ?_⟩
    intro path ordinary
    by_cases kind : (legacyRuntimeFileSystemPolicyForCwd cwd legacyPolicy).kind = .restricted
    · exact sameGrants_of_signature posix (posix_legacyRuntime kind) equal path
    · cases ordinary with
      | inl restricted => exact absurd restricted kind
      | inr undriven =>
        exact sameGrants_unrestricted posix kind equal undriven.1 undriven.2

def rootPolicy (access : FileSystemAccessMode) (entries : List ResolvedFileSystemEntry) :
    FileSystemSandboxPolicy :=
  restricted (specialEntry .root access :: entries.map hostEntry)

theorem rootPolicy_posix (access : FileSystemAccessMode) (entries : List ResolvedFileSystemEntry) :
    PosixPolicy (rootPolicy access entries) :=
  ⟨rfl, forall_mem_cons.mpr ⟨trivial, (hostPolicy_posix entries).paths⟩⟩

def openWork : List ResolvedFileSystemEntry :=
  [(work, .write), (joinName work ".git", .write), (joinName work ".agents", .write)]

def codexCarved : List ResolvedFileSystemEntry := openWork ++ [(joinName work ".codex", .read)]

theorem explicit_carve_out_is_equivalent :
    isSemanticallyEquivalentTo bareHost work noJoin (rootPolicy .read openWork)
        (rootPolicy .read codexCarved) = true ∧
      needsDirectRuntimeEnforcement bareHost work noJoin (rootPolicy .read openWork) .restricted =
        false ∧
      (∀ path, SameGrants bareHost work noJoin (rootPolicy .read openWork)
        (rootPolicy .read codexCarved) path) ∧
      ∃ legacyPolicy, toLegacySandboxPolicy bareHost work (rootPolicy .read openWork) .restricted =
          .ok legacyPolicy ∧
        ∀ path, path.driven = false → SameGrants bareHost work noJoin (rootPolicy .read openWork)
          (legacyRuntimeFileSystemPolicyForCwd work legacyPolicy) path := by
  have sound := semantic_equivalence_sound bareHost work noJoin (rootPolicy .read openWork)
    (rootPolicy .read codexCarved) .restricted (rootPolicy_posix ..) (rootPolicy_posix ..)
  have equivalent : isSemanticallyEquivalentTo bareHost work noJoin (rootPolicy .read openWork)
      (rootPolicy .read codexCarved) = true := by decide +kernel
  have unneeded : needsDirectRuntimeEnforcement bareHost work noJoin (rootPolicy .read openWork)
      .restricted = false := by decide +kernel
  obtain ⟨legacyPolicy, found, grants⟩ := sound.2 unneeded
  exact ⟨equivalent, unneeded, sound.1 equivalent, legacyPolicy, found,
    fun path undriven => grants path (.inr ⟨rfl, undriven⟩)⟩

def driveFile : HostPath := ⟨["C:", "x"], by decide⟩

theorem legacy_policy_grants_drive :
    PosixPolicy (rootPolicy .write []) ∧
      needsDirectRuntimeEnforcement bareHost work noJoin (rootPolicy .write []) .enabled = false ∧
      toLegacySandboxPolicy bareHost work (rootPolicy .write []) .enabled = .ok .dangerFullAccess ∧
      canReadLocalPathWithCwd bareHost work noJoin (rootPolicy .write []) driveFile = false ∧
      canReadLocalPathWithCwd bareHost work noJoin
        (legacyRuntimeFileSystemPolicyForCwd work .dangerFullAccess) driveFile = true :=
  ⟨rootPolicy_posix .., by decide, rfl, by decide, by decide⟩

end OpenInterpreter.SemanticEquivalence
