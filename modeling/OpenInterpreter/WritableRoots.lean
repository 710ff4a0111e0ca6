import OpenInterpreter.LocalAccess

/-! When the writable roots that a sandbox is built from allow exactly the paths that
`can_write_local_path_with_cwd` allows. -/

namespace OpenInterpreter.WritableRoots

open ExecutorPath SandboxAccess LocalPaths LocalPolicy LocalAccess List HostPath

variable (entries : List ResolvedFileSystemEntry)

def Unlisted (path : HostPath) : Prop :=
  ∀ entry ∈ entries, entry.1 ≠ path

/-- A writable root leaves the path out: an entry below the root takes the write access away, the
path is in a protected directory of a root that comes first, or it is in the working directory's own
`.codex`. -/
inductive Closed (cwd root path : HostPath) : Prop where
  | carved (inner : HostPath) (access : FileSystemAccessMode) (listed : (inner, access) ∈ entries)
      (narrows : access ≠ .write) (dead : ¬ Live entries inner) (below : inner.startsWith root = true)
      (apart : inner ≠ root) (covers : path.startsWith inner = true)
  | metadata (name : String) (member : name ∈ protectedMetadataPathNames)
      (first : foremost entries root = true) (unlisted : Unlisted entries (joinName root name))
      (covers : path.startsWith (joinName root name) = true)
  | missingDotCodex (same : root = cwd) (unlisted : Unlisted entries (joinName cwd ".codex"))
      (covers : path.startsWith (joinName cwd ".codex") = true)

/-- The condition on the entries. Roots over a nested root leave out its protected names; the `.codex`
of the working directory is writable through an outer root when it is writable at all; and a writable
`/` has an entry for every first component that reads as a drive. -/
structure RootsAgree (cwd : HostPath) : Prop where
  nested : ∀ root inner name, Live entries root → Live entries inner → inner.startsWith root = true →
    inner ≠ root → foremost entries inner = true → name ∈ protectedMetadataPathNames →
    Unlisted entries (joinName inner name) → Closed entries cwd root (joinName inner name)
  missingDotCodex : Live entries cwd → foremost entries cwd = false →
    Unlisted entries (joinName cwd ".codex") →
    ∃ root, Live entries root ∧ cwd.startsWith root = true ∧ root ≠ cwd ∧
      ¬ Closed entries cwd root (joinName cwd ".codex")
  drives : Live entries HostPath.root → ∀ drive : HostPath, drive.driven = true →
    drive.components.length = 1 → ∃ access, (drive, access) ∈ entries ∧ access ≠ .write

variable {access : FileSystemAccessMode} {entries : List ResolvedFileSystemEntry} {path : HostPath}
  {cwd : HostPath}

section

variable {root : HostPath}

theorem Closed.below {lower : HostPath} (closed : Closed entries cwd root path)
    (under : lower.startsWith path = true) : Closed entries cwd root lower := by
  cases closed with
  | carved inner access listed narrows dead below apart covers =>
    exact .carved inner access listed narrows dead below apart
      (startsWith_trans under covers)
  | metadata name member first unlisted covers =>
    exact .metadata name member first unlisted (startsWith_trans under covers)
  | missingDotCodex same unlisted covers =>
    exact .missingDotCodex same unlisted (startsWith_trans under covers)

theorem deepest_self (listed : (path, access) ∈ entries) : Deepest entries path path :=
  ⟨⟨access, listed⟩, startsWith_refl path, fun _ _ below => below⟩

variable {name : String}

section

variable (member : name ∈ protectedMetadataPathNames)
include member

theorem startsWith_joinName (root : HostPath) :
    (joinName root name).startsWith root = true := by
  rw [HostPath.startsWith_iff, joinName_components root member]
  exact prefix_append _ _

theorem startsWith_or_eq_joinName
    (below : (joinName root name).startsWith path = true) :
    root.startsWith path = true ∨ path = joinName root name := by
  have above := startsWith_iff.mp below
  rw [joinName_components root member] at above
  cases prefix_concat_iff.mp above with
  | inl same => exact .inr (HostPath.ext (same.trans (joinName_components root member).symm))
  | inr upper => exact .inl (startsWith_iff.mpr upper)

theorem not_startsWith_joinName (root : HostPath) :
    root.startsWith (joinName root name) = false := by
  apply Bool.eq_false_iff.mpr
  intro below
  have long := (startsWith_iff.mp below).length_le
  rw [joinName_components root member, length_append, length_singleton] at long
  omega

theorem joinName_undriven (undriven : root.driven = false) : (joinName root name).driven = false := by
  rw [HostPath.driven, joinName_components root member]
  rw [HostPath.driven] at undriven
  cases shape : root.components with
  | nil => simpa using (PolicyPlaces.protected_name_plain member).2.1
  | cons head tail =>
    rw [shape] at undriven
    exact undriven

theorem not_startsWith_of_driven (driven : path.driven = true) :
    ¬ path.startsWith (joinName HostPath.root name) = true := by
  intro below
  have same := root_of_driven below driven (joinName_undriven member rfl)
  have shut := not_startsWith_joinName member HostPath.root
  rw [same] at shut
  cases shut

theorem deepest_joinName
    (listed : ∃ access, (root, access) ∈ entries)
    (unlisted : Unlisted entries (joinName root name)) :
    Deepest entries (joinName root name) root where
  listed := listed
  covers := startsWith_joinName member root
  deepest entry found below := by
    cases startsWith_or_eq_joinName member below with
    | inl upper => exact upper
    | inr same => exact absurd same (unlisted entry found)

end

theorem unlisted_iff :
    hasExplicitResolvedPathEntry entries path = false ↔ Unlisted entries path := by
  simp [hasExplicitResolvedPathEntry, Unlisted]

theorem listed_of_not_unlisted (listed : ¬ Unlisted entries path) :
    ∃ access, (path, access) ∈ entries := by
  obtain ⟨entry, member, same⟩ : ∃ entry ∈ entries, entry.1 = path := by
    simpa [Unlisted] using listed
  exact ⟨entry.2, same ▸ member⟩

theorem exists_narrowing (listed : (path, access) ∈ entries) (undriven : path.driven = false)
    (dead : ¬ Live entries path) : ∃ other, (path, other) ∈ entries ∧ other ≠ .write := by
  by_cases writes : access = .write
  · rw [writes] at listed
    have denied : (path, .deny) ∈ entries := by
      by_contra undenied
      exact dead ⟨listed, undenied, undriven⟩
    exact ⟨.deny, denied, nofun⟩
  · exact ⟨access, listed, writes⟩

theorem reserved_joinName (root : HostPath) (member : name ∈ protectedMetadataPathNames) :
    reserved root (joinName root name) = true :=
  any_eq_true.mpr ⟨name, member, startsWith_refl _⟩

theorem not_reserved_self (root : HostPath) : reserved root root = false := by
  apply any_eq_false.mpr
  intro name member below
  rw [not_startsWith_joinName member root] at below
  cases below

end

structure WriteCheck (entries : List ResolvedFileSystemEntry) (check : HostPath → Bool) : Prop where
  driven : ∀ path, path.driven = true → check path = false
  ordinary : ∀ path, path.driven = false → (check path = true ↔
    ∃ root, Deepest entries path root ∧ Live entries root ∧
      ¬ (foremost entries root = true ∧ reserved root path = true))

variable {name : String} {check : HostPath → Bool}

section

variable {root : HostPath} (spec : WriteCheck entries check)
include spec

theorem WriteCheck.at_deepest (undriven : path.driven = false)
    (deepest : Deepest entries path root) :
    check path = true ↔
      Live entries root ∧ ¬ (foremost entries root = true ∧ reserved root path = true) := by
  rw [spec.ordinary path undriven]
  constructor
  · rintro ⟨other, found, live, free⟩
    rw [deepest.unique found]
    exact ⟨live, free⟩
  · rintro ⟨live, free⟩
    exact ⟨root, deepest, live, free⟩

theorem WriteCheck.at_listed
    (listed : (path, access) ∈ entries) : check path = true ↔ Live entries path := by
  cases driven : path.driven with
  | true =>
    rw [spec.driven path driven]
    constructor
    · nofun
    · intro live
      rw [live.undriven] at driven
      cases driven
  | false =>
    rw [spec.at_deepest driven (deepest_self listed), not_reserved_self]
    simp

theorem WriteCheck.at_metadata (live : Live entries root)
    (member : name ∈ protectedMetadataPathNames)
    (unlisted : Unlisted entries (joinName root name)) :
    check (joinName root name) = true ↔ foremost entries root = false := by
  rw [spec.at_deepest (joinName_undriven member live.undriven)
    (deepest_joinName member ⟨_, live.granted⟩ unlisted), reserved_joinName root member]
  simp [live]

theorem WriteCheck.shut_metadata (live : Live entries root)
    (member : name ∈ protectedMetadataPathNames)
    (unlisted : Unlisted entries (joinName root name)) :
    check (joinName root name) = false ↔ foremost entries root = true := by
  rw [← Bool.not_eq_true, spec.at_metadata live member unlisted, Bool.not_eq_false]

end

def RootAllows (entries : List ResolvedFileSystemEntry) (cwd path : HostPath) : Prop :=
  ∃ root, Live entries root ∧ path.startsWith root = true ∧ ¬ Closed entries cwd root path

section

variable {root : HostPath}

theorem exists_deepest (undriven : path.driven = false) (listed : (root, access) ∈ entries)
    (covers : path.startsWith root = true) : ∃ deepest, Deepest entries path deepest := by
  have rule := mem_hostRules.mpr
    ⟨root, listed, undriven_of_startsWith covers undriven, rfl⟩
  have above : "" :: root.components <+: "" :: path.components :=
    cons_prefix_cons.mpr ⟨rfl, startsWith_iff.mp covers⟩
  obtain ⟨place, value, decides⟩ := PrefixRules.exists_decides rule above
  obtain ⟨deepest, found, _⟩ := (decides_iff undriven).mp ⟨place, decides⟩
  exact ⟨deepest, found⟩

theorem unlisted_of_reserved (deepest : Deepest entries path root)
    (member : name ∈ protectedMetadataPathNames)
    (covers : path.startsWith (joinName root name) = true) :
    Unlisted entries (joinName root name) := by
  intro entry listed same
  have above := deepest.deepest entry listed (same ▸ covers)
  rw [same, not_startsWith_joinName member root] at above
  cases above

variable (spec : WriteCheck entries check)
include spec

theorem check_of_rootAllows (agree : RootsAgree entries cwd)
    (allowed : RootAllows entries cwd path) : check path = true := by
  obtain ⟨root, live, below, notClosed⟩ := allowed
  cases driven : path.driven with
  | true =>
    -- Only `/` is over a drive, and it has an entry for the drive.
    cases root_of_driven below driven live.undriven
    obtain ⟨drive, isDrive, single, inside⟩ := exists_drive driven
    obtain ⟨access, listed, narrows⟩ := agree.drives live drive isDrive single
    have dead : ¬ Live entries drive := by
      intro alive
      rw [alive.undriven] at isDrive
      cases isDrive
    have apart : drive ≠ HostPath.root := by
      intro same
      rw [same] at isDrive
      cases isDrive
    exact absurd (.carved drive access listed narrows dead
      (startsWith_iff.mpr nil_prefix) apart inside) notClosed
  | false =>
    obtain ⟨deep, deepest⟩ := exists_deepest driven live.granted below
    have above : deep.startsWith root = true := deepest.deepest _ live.granted below
    have deepLive : Live entries deep := by
      by_cases same : deep = root
      · rw [same]
        exact live
      · by_contra dead
        obtain ⟨access, listed⟩ := deepest.listed
        obtain ⟨other, otherListed, narrows⟩ := exists_narrowing listed
          (undriven_of_startsWith deepest.covers driven) dead
        exact notClosed (.carved deep other otherListed narrows dead above same deepest.covers)
    rw [spec.at_deepest driven deepest]
    refine ⟨deepLive, ?_⟩
    rintro ⟨first, inside⟩
    obtain ⟨name, member, covers⟩ := any_eq_true.mp inside
    have unlisted := unlisted_of_reserved deepest member covers
    apply notClosed
    by_cases same : deep = root
    · rw [same] at first unlisted covers
      exact .metadata name member first unlisted covers
    · exact (agree.nested root deep name live deepLive above same first member unlisted).below covers

theorem rootAllows_of_check (agree : RootsAgree entries cwd)
    (allowed : check path = true) : RootAllows entries cwd path := by
  have undriven : path.driven = false := by
    apply Bool.eq_false_iff.mpr
    intro driven
    rw [spec.driven path driven] at allowed
    cases allowed
  obtain ⟨root, deepest, live, free⟩ := (spec.ordinary path undriven).mp allowed
  by_cases closed : Closed entries cwd root path
  · cases closed with
    | carved inner access listed narrows dead below apart covers =>
      exact absurd (startsWith_antisymm below (deepest.deepest _ listed covers)) apart
    | metadata name member first unlisted covers =>
      exact absurd ⟨first, any_eq_true.mpr ⟨name, member, covers⟩⟩ free
    | missingDotCodex same unlisted covers =>
      cases same
      have later : foremost entries cwd = false := by
        apply Bool.eq_false_iff.mpr
        intro first
        exact free ⟨first, any_eq_true.mpr ⟨".codex", by decide, covers⟩⟩
      obtain ⟨outer, outerLive, above, apart, notClosed⟩ := agree.missingDotCodex live later unlisted
      have onward : (joinName cwd ".codex").startsWith cwd = true :=
        startsWith_joinName (by decide) cwd
      refine ⟨outer, outerLive, startsWith_trans deepest.covers above, ?_⟩
      intro closed
      apply notClosed
      cases closed with
      | carved inner access listed narrows dead below differs reaches =>
        exact .carved inner access listed narrows dead below differs
          (startsWith_trans onward (deepest.deepest _ listed reaches))
      | metadata name member first free reaches =>
        refine .metadata name member first free (startsWith_trans onward ?_)
        cases startsWith_total deepest.covers reaches with
        | inl inside => exact inside
        | inr outside =>
          cases startsWith_or_eq_joinName member outside with
          | inl upper => exact absurd (startsWith_antisymm upper above) apart
          | inr same =>
            rw [← same]
            exact startsWith_refl cwd
      | missingDotCodex same => exact absurd same apart
  · exact ⟨root, live, deepest.covers, closed⟩

theorem rootsAgree_of_always (always : ∀ path, RootAllows entries cwd path ↔ check path = true) :
    RootsAgree entries cwd where
  nested root inner name live innerLive above apart first member unlisted := by
    by_contra notClosed
    have below := startsWith_trans (startsWith_joinName member inner) above
    have allowed := (always _).mp ⟨root, live, below, notClosed⟩
    rw [(spec.shut_metadata innerLive member unlisted).mpr first] at allowed
    cases allowed
  missingDotCodex live later unlisted := by
    have member : ".codex" ∈ protectedMetadataPathNames := by decide
    have allowed := (spec.at_metadata live member unlisted).mpr later
    obtain ⟨root, rootLive, below, notClosed⟩ := (always _).mpr allowed
    refine ⟨root, rootLive, ?_, ?_, notClosed⟩
    · cases startsWith_or_eq_joinName member below with
      | inl above => exact above
      | inr same => exact absurd same (unlisted _ rootLive.granted)
    · intro same
      exact notClosed (.missingDotCodex same unlisted (startsWith_refl _))
  drives live drive driven single := by
    by_contra missing
    have notClosed : ¬ Closed entries cwd HostPath.root drive := by
      intro closed
      cases closed with
      | carved inner access listed narrows dead below apart covers =>
        have above := startsWith_iff.mp covers
        have filled : inner.components ≠ [] := fun empty => apart (HostPath.ext empty)
        have same : inner = drive := by
          apply HostPath.ext
          apply above.eq_of_length
          have positive := length_pos_of_ne_nil filled
          have bound := above.length_le
          omega
        exact missing ⟨access, same ▸ listed, narrows⟩
      | metadata name member first unlisted covers =>
        exact not_startsWith_of_driven member driven covers
      | missingDotCodex same unlisted covers =>
        rw [← same] at covers
        exact not_startsWith_of_driven (by decide) driven covers
    have below : drive.startsWith HostPath.root = true := startsWith_iff.mpr nil_prefix
    have allowed := (always drive).mp ⟨HostPath.root, live, below, notClosed⟩
    rw [spec.driven drive driven] at allowed
    cases allowed

end

section

variable {host : Host} {windowsJoin : PathUri → String → Option PathUri}
  {policy : FileSystemSandboxPolicy} {root : HostPath}

theorem writeCheck_local (undrivenCwd : cwd.driven = false) (posix : PosixPolicy policy)
    (partially : hasFullDiskWriteAccess policy = false) :
    WriteCheck (resolvedEntriesWithCwd host cwd policy)
      (canWriteLocalPathWithCwd host cwd windowsJoin policy) where
  driven _ driven := canWrite_driven posix.kind (.inl driven)
  ordinary _ undriven := canWrite_iff undrivenCwd posix partially undriven

section

variable (spec : WriteCheck (resolvedEntriesWithCwd host cwd policy)
    (canWriteLocalPathWithCwd host cwd windowsJoin policy))
include spec

theorem mem_effectiveEntries :
    (path, access) ∈ effectiveEntries host cwd windowsJoin policy ↔
      (path, access) ∈ resolvedEntriesWithCwd host cwd policy ∧
        (access = .write ↔ Live (resolvedEntriesWithCwd host cwd policy) path) := by
  rw [effectiveEntries, mem_filter]
  apply and_congr_right
  intro listed
  rw [← spec.at_listed listed, decide_eq_true_iff, Bool.eq_iff_iff, FileSystemAccessMode.canWrite,
    decide_eq_true_iff]

theorem mem_writableEntries :
    path ∈ writableEntries host cwd windowsJoin policy ↔
      Live (resolvedEntriesWithCwd host cwd policy) path := by
  have listed : path ∈ writableEntries host cwd windowsJoin policy ↔
      (path, .write) ∈ effectiveEntries host cwd windowsJoin policy := by
    simp [writableEntries, FileSystemAccessMode.canWrite]
  rw [listed, mem_effectiveEntries spec]
  constructor
  · rintro ⟨_, live⟩
    exact live.mp rfl
  · intro live
    exact ⟨live.granted, fun _ => live, fun _ => rfl⟩

omit spec in
theorem mem_protectedMetadataNames :
    name ∈ (writableRootFor host cwd windowsJoin policy root).protectedMetadataNames ↔
      name ∈ protectedMetadataPathNames ∧
        canWriteLocalPathWithCwd host cwd windowsJoin policy (joinName root name) = false := by
  rw [writableRootFor, protectedMetadataNamesForWritableRoot, mem_filter]
  apply and_congr_right
  intro _
  constructor
  · intro shut
    simpa using all_eq_true.mp shut root mem_cons_self
  · intro shut
    apply all_eq_true.mpr
    intro base member
    have same : base = root := by
      cases mem_cons.mp member with
      | inl same => exact same
      | inr raw => exact of_decide_eq_true (mem_filter.mp raw).2
    rw [same, shut]
    rfl

theorem mem_readOnlySubpaths :
    path ∈ (writableRootFor host cwd windowsJoin policy root).readOnlySubpaths ↔
      (cwd = root ∧ path = joinName root ".codex" ∧
        Unlisted (resolvedEntriesWithCwd host cwd policy) path) ∨
      ∃ access, (path, access) ∈ resolvedEntriesWithCwd host cwd policy ∧ access ≠ .write ∧
        ¬ Live (resolvedEntriesWithCwd host cwd policy) path ∧ path.startsWith root = true ∧
        path ≠ root := by
  rw [writableRootFor, dedupAbsolutePaths, mem_eraseDups, mem_append]
  apply or_congr
  · rw [mem_filter, Bool.not_eq_true', unlisted_iff, defaultReadOnlySubpathsForWritableRoot]
    by_cases same : cwd = root <;> simp [same]
  · rw [mem_filterMap]
    constructor
    · rintro ⟨⟨inner, access⟩, member, carved⟩
      obtain ⟨effective, narrows⟩ := mem_filter.mp member
      rw [carveoutPath] at carved
      split at carved
      · cases carved
      · rename_i inside
        cases carved
        have kind : access ≠ .write := by simpa [FileSystemAccessMode.canWrite] using narrows
        obtain ⟨listed, exact_write⟩ := (mem_effectiveEntries spec).mp effective
        have parts := not_or.mp inside
        exact ⟨access, listed, kind, fun live => kind (exact_write.mpr live), by simpa using parts.2,
          parts.1⟩
    · rintro ⟨access, listed, narrows, dead, below, apart⟩
      refine ⟨(path, access), mem_filter.mpr ⟨?_, ?_⟩, ?_⟩
      · exact (mem_effectiveEntries spec).mpr
          ⟨listed, fun writes => absurd writes narrows, fun live => absurd live dead⟩
      · simpa [FileSystemAccessMode.canWrite] using narrows
      · simp [carveoutPath, below, apart]

omit spec in
theorem containsProtectedName_iff {writableRoot : WritableRoot}
    (below : path.startsWith writableRoot.root = true) :
    writableRoot.pathContainsProtectedMetadataName path = true ↔
      ∃ name ∈ writableRoot.protectedMetadataNames,
        writableRoot.root.components ++ [name] <+: path.components := by
  rw [WritableRoot.pathContainsProtectedMetadataName, if_pos below]
  obtain ⟨rest, whole⟩ := startsWith_iff.mp below
  rw [← whole, drop_left]
  cases rest with
  | nil =>
    constructor
    · nofun
    · rintro ⟨name, _, inside⟩
      have long := inside.length_le
      simp at long
  | cons first tail =>
    simp only [head?_cons, contains_iff_mem]
    constructor
    · intro member
      exact ⟨first, member, by simp⟩
    · rintro ⟨name, member, inside⟩
      have same : name = first := by simpa using inside
      exact same ▸ member

section

variable (live : Live (resolvedEntriesWithCwd host cwd policy) root)
include live

theorem closed_of_shut (member : name ∈ protectedMetadataPathNames)
    (shut : canWriteLocalPathWithCwd host cwd windowsJoin policy (joinName root name) = false)
    (covers : path.startsWith (joinName root name) = true) :
    Closed (resolvedEntriesWithCwd host cwd policy) cwd root path := by
  by_cases unlisted : Unlisted (resolvedEntriesWithCwd host cwd policy) (joinName root name)
  · exact .metadata name member ((spec.shut_metadata live member unlisted).mp shut) unlisted covers
  · obtain ⟨access, listed⟩ := listed_of_not_unlisted unlisted
    have dead : ¬ Live (resolvedEntriesWithCwd host cwd policy) (joinName root name) := by
      intro alive
      rw [(spec.at_listed listed).mpr alive] at shut
      cases shut
    obtain ⟨other, otherListed, narrows⟩ :=
      exists_narrowing listed (joinName_undriven member live.undriven) dead
    apply Closed.carved (joinName root name) other otherListed narrows dead
      (startsWith_joinName member root) _ covers
    intro same
    have inside := not_startsWith_joinName member root
    rw [same, startsWith_refl] at inside
    cases inside

theorem closed_iff :
    Closed (resolvedEntriesWithCwd host cwd policy) cwd root path ↔
      (∃ subpath ∈ (writableRootFor host cwd windowsJoin policy root).readOnlySubpaths,
        path.startsWith subpath = true) ∨
      ∃ name ∈ (writableRootFor host cwd windowsJoin policy root).protectedMetadataNames,
        path.startsWith (joinName root name) = true := by
  constructor
  · intro closed
    cases closed with
    | carved inner access listed narrows dead below apart covers =>
      exact .inl ⟨inner, (mem_readOnlySubpaths spec).mpr
        (.inr ⟨access, listed, narrows, dead, below, apart⟩), covers⟩
    | metadata name member first unlisted covers =>
      have shut := (spec.shut_metadata live member unlisted).mpr first
      exact .inr ⟨name, mem_protectedMetadataNames.mpr ⟨member, shut⟩, covers⟩
    | missingDotCodex same unlisted covers =>
      cases same
      exact .inl ⟨joinName cwd ".codex",
        (mem_readOnlySubpaths spec).mpr (.inl ⟨rfl, rfl, unlisted⟩), covers⟩
  · rintro (⟨subpath, member, covers⟩ | ⟨name, member, covers⟩)
    · cases (mem_readOnlySubpaths spec).mp member with
      | inl missing =>
        obtain ⟨rfl, rfl, unlisted⟩ := missing
        exact .missingDotCodex rfl unlisted covers
      | inr entry =>
        obtain ⟨access, listed, narrows, dead, below, apart⟩ := entry
        exact .carved subpath access listed narrows dead below apart covers
    · obtain ⟨protectedName, shut⟩ := mem_protectedMetadataNames.mp member
      exact closed_of_shut spec live protectedName shut covers

theorem isPathWritable_iff :
    (writableRootFor host cwd windowsJoin policy root).isPathWritable path = true ↔
      path.startsWith root = true ∧
        ¬ Closed (resolvedEntriesWithCwd host cwd policy) cwd root path := by
  have same : (writableRootFor host cwd windowsJoin policy root).root = root := rfl
  rw [WritableRoot.isPathWritable, same]
  by_cases below : path.startsWith root = true
  · have names : (∃ name ∈ (writableRootFor host cwd windowsJoin policy root).protectedMetadataNames,
        path.startsWith (joinName root name) = true) ↔
        (writableRootFor host cwd windowsJoin policy root).pathContainsProtectedMetadataName path =
          true := by
      rw [containsProtectedName_iff below]
      apply exists_congr
      intro name
      apply and_congr_right
      intro member
      rw [HostPath.startsWith_iff,
        joinName_components root (mem_protectedMetadataNames.mp member).1]
      rfl
    rw [closed_iff spec live, names]
    simp
  · simp [below]

end

theorem exists_writableRoot_iff (partially : hasFullDiskWriteAccess policy = false) :
    (∃ writableRoot ∈ getWritableRootsWithCwd host cwd windowsJoin policy,
      writableRoot.isPathWritable path = true) ↔
      RootAllows (resolvedEntriesWithCwd host cwd policy) cwd path := by
  rw [getWritableRootsWithCwd, partially]
  constructor
  · rintro ⟨writableRoot, member, allowed⟩
    obtain ⟨root, listed, rfl⟩ := mem_map.mp member
    have live := (mem_writableEntries spec).mp (mem_eraseDups.mp listed)
    exact ⟨root, live, (isPathWritable_iff spec live).mp allowed⟩
  · rintro ⟨root, live, allowed⟩
    refine ⟨writableRootFor host cwd windowsJoin policy root, mem_map.mpr ⟨root, ?_, rfl⟩,
      (isPathWritable_iff spec live).mpr allowed⟩
    exact mem_eraseDups.mpr ((mem_writableEntries spec).mpr live)

end

theorem no_writableRoots_of_driven (kind : policy.kind = .restricted) (driven : cwd.driven = true) :
    getWritableRootsWithCwd host cwd windowsJoin policy = [] := by
  have empty : writableEntries host cwd windowsJoin policy = [] := by
    apply eq_nil_iff_forall_not_mem.mpr
    intro path member
    obtain ⟨entry, listed, rfl⟩ := mem_map.mp member
    obtain ⟨effective, writes⟩ := mem_filter.mp listed
    have allowed := of_decide_eq_true (mem_filter.mp effective).2
    rw [writes, canWrite_driven kind (.inr driven)] at allowed
    cases allowed
  rw [getWritableRootsWithCwd, empty]
  split <;> rfl

end

theorem writable_roots_allow_iff (host : Host) (cwd : HostPath)
    (windowsJoin : PathUri → String → Option PathUri) (policy : FileSystemSandboxPolicy)
    (posix : PosixPolicy policy) (partially : hasFullDiskWriteAccess policy = false) :
    (∀ path, (∃ writableRoot ∈ getWritableRootsWithCwd host cwd windowsJoin policy,
        writableRoot.isPathWritable path = true) ↔
        canWriteLocalPathWithCwd host cwd windowsJoin policy path = true) ↔
      cwd.driven = true ∨ RootsAgree (resolvedEntriesWithCwd host cwd policy) cwd := by
  cases driven : cwd.driven with
  | true =>
    refine iff_of_true ?_ (.inl rfl)
    intro path
    rw [no_writableRoots_of_driven posix.kind driven, canWrite_driven posix.kind (.inr driven)]
    simp
  | false =>
    have spec : WriteCheck (resolvedEntriesWithCwd host cwd policy)
        (canWriteLocalPathWithCwd host cwd windowsJoin policy) :=
      writeCheck_local driven posix partially
    simp only [exists_writableRoot_iff spec partially]
    constructor
    · intro always
      exact .inr (rootsAgree_of_always spec always)
    · rintro (impossible | agree)
      · cases impossible
      · intro path
        exact ⟨check_of_rootAllows spec agree, rootAllows_of_check spec agree⟩

def noJoin (_ : PathUri) (_ : String) : Option PathUri := none

def bareHost : Host := ⟨none, none⟩

def work : HostPath := ⟨["w"], by decide⟩

def library : HostPath := ⟨["w", "lib"], by decide⟩

def hostEntry (entry : ResolvedFileSystemEntry) : FileSystemSandboxEntry :=
  { path := .path (fromAbsPath entry.1), access := entry.2 }

def hostPolicy (entries : List ResolvedFileSystemEntry) : FileSystemSandboxPolicy :=
  restricted (entries.map hostEntry)

theorem hostPolicy_posix (entries : List ResolvedFileSystemEntry) :
    PosixPolicy (hostPolicy entries) := by
  refine ⟨rfl, ?_⟩
  intro entry member
  obtain ⟨resolved, _, rfl⟩ := mem_map.mp member
  exact ⟨resolved.1, rfl⟩

def carvedPolicy : FileSystemSandboxPolicy := hostPolicy [(work, .write), (library, .read)]

theorem carvedPolicy_agrees :
    RootsAgree (resolvedEntriesWithCwd bareHost work carvedPolicy) work := by
  have entries : resolvedEntriesWithCwd bareHost work carvedPolicy =
      [(work, .write), (library, .read)] := by
    decide
  have only : ∀ root, Live [(work, FileSystemAccessMode.write), (library, .read)] root →
      root = work := by
    intro root live
    have granted := live.granted
    simp only [mem_cons, not_mem_nil, or_false, Prod.mk.injEq] at granted
    rcases granted with same | other
    · exact same.1
    · cases other.2
  constructor
  · intro root inner name live innerLive _ apart
    exact absurd ((only inner innerLive).trans (only root live).symm) apart
  · intro _ later
    exact absurd later (by decide)
  · intro live
    exact absurd (only _ live) (by decide)

theorem carved_root_allows_writable_paths :
    PosixPolicy carvedPolicy ∧ hasFullDiskWriteAccess carvedPolicy = false ∧
      ∀ path, (∃ writableRoot ∈ getWritableRootsWithCwd bareHost work noJoin carvedPolicy,
        writableRoot.isPathWritable path = true) ↔
        canWriteLocalPathWithCwd bareHost work noJoin carvedPolicy path = true :=
  ⟨hostPolicy_posix _, by decide, (writable_roots_allow_iff bareHost work noJoin carvedPolicy
    (hostPolicy_posix _) (by decide)).mpr (.inr carvedPolicy_agrees)⟩

def nestedPolicy : FileSystemSandboxPolicy := hostPolicy [(work, .write), (library, .write)]

theorem outer_root_allows_inner_metadata :
    PosixPolicy nestedPolicy ∧ hasFullDiskWriteAccess nestedPolicy = false ∧
      (∃ writableRoot ∈ getWritableRootsWithCwd bareHost work noJoin nestedPolicy,
        writableRoot.isPathWritable (joinName library ".git") = true) ∧
      canWriteLocalPathWithCwd bareHost work noJoin nestedPolicy (joinName library ".git") =
        false :=
  ⟨hostPolicy_posix _, by decide⟩

end OpenInterpreter.WritableRoots
