import OpenInterpreter.MaterializedAccess
import OpenInterpreter.PermissionIntersection

/-! Approved permissions against the request and the grant. The intersection keeps every denial on
the way to a kept grant, and so it exceeds the request only where a read entry narrows a kept write
grant. -/

namespace OpenInterpreter.ApprovedPermissions

open ExecutorPath SandboxAccess PrefixRules PolicyPlaces LocalPaths ReadDenyMatcher List
open MaterializedRoots MaterializedAccess PermissionIntersection

/-! ### Intersected rules -/

theorem not_write_le_read : ¬ FileSystemAccessMode.write ≤ FileSystemAccessMode.read := by decide

/-- The rules of an intersection: the kept grants, and the denials of both sides that lie over or
below one of them. A grant is kept if the request covers it at its own place and no proper denial
lies over it. -/
structure Intersects (requested granted result : AccessRules) (proper : List String → Prop)
    (kept : List String → FileSystemAccessMode → Prop) : Prop where
  kept_iff : ∀ place access, kept place access ↔ (place, access) ∈ granted ∧ access ≠ .deny ∧
      capability access ≤ capability (accessAt requested place) ∧
      ∀ denial, (denial, .deny) ∈ requested → proper denial → ¬ denial <+: place
  rule_iff : ∀ place access, (place, access) ∈ result ↔ kept place access ∨
      access = .deny ∧ ((place, .deny) ∈ requested ∨ (place, .deny) ∈ granted) ∧
        ∃ grant mode, kept grant mode ∧ (place <+: grant ∨ grant <+: place)

/-- A read entry at the place narrows a write grant over it: the request has no write entry there,
and neither a denial nor a kept read grant lies between. -/
def Narrows (requested granted : AccessRules)
    (kept : List String → FileSystemAccessMode → Prop) (place grant : List String) : Prop :=
  (place, .write) ∉ requested ∧ (∀ denial, (denial, .deny) ∈ requested ∨ (denial, .deny) ∈ granted →
      grant <+: denial → ¬ denial <+: place) ∧
    ∀ other, kept other .read → grant <+: other → other ≠ grant → ¬ other <+: place

variable {access : FileSystemAccessMode}

section

variable {requested granted result : AccessRules} {proper : List String → Prop}
  {kept : List String → FileSystemAccessMode → Prop}
  (intersects : Intersects requested granted result proper kept) {place grant : List String}

include intersects

theorem kept_of_decides (decides : Decides result place grant access) (readable : access ≠ .deny) :
    kept grant access := by
  cases (intersects.rule_iff grant access).mp decides.rule with
  | inl found => exact found
  | inr denial => exact absurd denial.1 readable

theorem no_denial_below (decides : Decides result place grant access) (readable : access ≠ .deny)
    {denial : List String} (denies : (denial, .deny) ∈ requested ∨ (denial, .deny) ∈ granted)
    (below : grant <+: denial) : ¬ denial <+: place := by
  intro above
  have kept_grant := kept_of_decides intersects decides readable
  have rule : (denial, .deny) ∈ result :=
    (intersects.rule_iff denial .deny).mpr (.inr ⟨rfl, denies, grant, access, kept_grant, .inr below⟩)
  exact readable (le_antisymm access.le_deny (decides.level rule above below).2)

theorem decides_requested_of_kept (found : kept grant access) :
    ∃ decider mode, Decides requested grant decider mode ∧ capability access ≤ capability mode ∧
      mode ≠ .deny := by
  obtain ⟨_, readable, covered, _⟩ := (intersects.kept_iff grant access).mp found
  have granted_there : accessAt requested grant ≠ .deny := by
    intro refused
    rw [refused] at covered
    cases access with
    | read | write => exact absurd covered (by decide)
    | deny => exact readable rfl
  obtain ⟨decider, decides⟩ := exists_decider granted_there
  exact ⟨decider, _, decides, covered, granted_there⟩

theorem kept_read_below (decides : Decides result place grant .write) {other : List String}
    (member : (other, .read) ∈ granted) (below : grant <+: other) (above : other <+: place) :
    kept other .read := by
  have kept_grant := kept_of_decides intersects decides nofun
  obtain ⟨_, _, _, undenied⟩ := (intersects.kept_iff grant .write).mp kept_grant
  obtain ⟨decider, mode, requests, _, readable⟩ := decides_requested_of_kept intersects kept_grant
  -- A denial of the request over the read grant would lie over the write grant or be kept below it.
  have outside : ∀ denial, (denial, .deny) ∈ requested → denial <+: other → denial <+: grant := by
    intro denial denies covers
    cases prefix_or_prefix_of_prefix covers below with
    | inl outer => exact outer
    | inr under =>
      exact absurd (covers.trans above)
        (no_denial_below intersects decides nofun (.inl denies) under)
  refine (intersects.kept_iff other .read).mpr ⟨member, nofun, ?_, ?_⟩
  · have covers : decider <+: other := requests.covers.trans below
    obtain ⟨otherDecider, otherMode, otherRequests⟩ := exists_decides requests.rule covers
    rw [accessAt_of_decides otherRequests]
    cases otherMode with
    | read => exact Nat.le_refl _
    | write => exact Nat.le_succ _
    | deny =>
      have outer := outside _ otherRequests.rule otherRequests.covers
      have under := otherRequests.covers_place requests.rule covers
      have level := requests.level otherRequests.rule outer under
      exact absurd (le_antisymm mode.le_deny level.2) readable
  · intro denial denies proper_denial covers
    exact undenied denial denies proper_denial (outside denial denies covers)

theorem capability_le_of_kept {bound : Nat}
    (each : ∀ grant access, Decides result place grant access → access ≠ .deny →
      kept grant access → capability access ≤ bound) :
    capability (accessAt result place) ≤ bound := by
  by_cases refused : accessAt result place = .deny
  · rw [refused]
    exact Nat.zero_le _
  · obtain ⟨grant, decides⟩ := exists_decider refused
    exact each grant _ decides refused (kept_of_decides intersects decides refused)

theorem capability_le_granted (place : List String) :
    capability (accessAt result place) ≤ capability (accessAt granted place) := by
  refine capability_le_of_kept intersects fun grant access decides refused kept_grant => ?_
  have member := ((intersects.kept_iff grant access).mp kept_grant).1
  obtain ⟨other, mode, grants⟩ := exists_decides member decides.covers
  have below : grant <+: other := grants.covers_place member decides.covers
  rw [accessAt_of_decides grants]
  cases mode with
  | write => cases access <;> decide
  | deny =>
    exact absurd grants.covers
      (no_denial_below intersects decides refused (.inr grants.rule) below)
  | read =>
    cases access with
    | read => exact Nat.le_refl _
    | deny => exact Nat.zero_le _
    | write =>
      have kept_other := kept_read_below intersects decides grants.rule below grants.covers
      have rule := (intersects.rule_iff other .read).mpr (.inl kept_other)
      have same : other = grant := (decides.level rule grants.covers below).1
      have back := grants.level member decides.covers (same ▸ prefix_refl _)
      exact absurd back.2 not_write_le_read

theorem capability_le_requested
    (wide : ∀ entry, (entry, .read) ∈ requested → ∀ grant, kept grant .write → grant <+: entry →
      ¬ Narrows requested granted kept entry grant) (place : List String) :
    capability (accessAt result place) ≤ capability (accessAt requested place) := by
  refine capability_le_of_kept intersects fun grant access decides refused kept_grant => ?_
  obtain ⟨decider, mode, requests, covered, _⟩ := decides_requested_of_kept intersects kept_grant
  have covers : decider <+: place := requests.covers.trans decides.covers
  obtain ⟨other, otherMode, otherRequests⟩ := exists_decides requests.rule covers
  rw [accessAt_of_decides otherRequests]
  cases prefix_or_prefix_of_prefix otherRequests.covers decides.covers with
  | inl outer =>
    have same := (otherRequests.between outer decides.covers).unique requests
    rw [same.2]
    exact covered
  | inr below =>
    cases otherMode with
    | write => cases access <;> decide
    | deny =>
      exact absurd otherRequests.covers
        (no_denial_below intersects decides refused (.inl otherRequests.rule) below)
    | read =>
      cases access with
      | read => exact Nat.le_refl _
      | deny => exact Nat.zero_le _
      | write =>
        refine absurd ?_ (wide other otherRequests.rule grant kept_grant below)
        refine ⟨?_, ?_, ?_⟩
        · intro writes
          have level := otherRequests.level writes otherRequests.covers (prefix_refl _)
          exact absurd level.2 not_write_le_read
        · intro denial denies under outer
          exact no_denial_below intersects decides nofun denies under
            (outer.trans otherRequests.covers)
        · intro third kept_third under apart outer
          have rule := (intersects.rule_iff third .read).mpr (.inl kept_third)
          exact apart (decides.level rule (outer.trans otherRequests.covers) under).1

theorem not_narrows_of_le {entry : List String} (member : (entry, .read) ∈ requested)
    (kept_grant : kept grant .write) (below : grant <+: entry)
    (bounded : capability (accessAt result entry) ≤ capability (accessAt requested entry)) :
    ¬ Narrows requested granted kept entry grant := by
  rintro ⟨unwritten, undenied, unread⟩
  have rule := (intersects.rule_iff grant .write).mpr (.inl kept_grant)
  obtain ⟨decider, mode, decides⟩ := exists_decides rule below
  have under : grant <+: decider := decides.covers_place rule below
  rw [accessAt_of_decides decides] at bounded
  cases mode with
  | deny =>
    cases (intersects.rule_iff decider .deny).mp decides.rule with
    | inl found => exact absurd rfl ((intersects.kept_iff decider .deny).mp found).2.1
    | inr denial => exact undenied decider denial.2.1 under decides.covers
  | read =>
    have found := kept_of_decides intersects decides nofun
    refine unread decider found under ?_ decides.covers
    intro same
    have level := decides.level rule below (same ▸ prefix_refl _)
    exact absurd level.2 not_write_le_read
  | write =>
    obtain ⟨other, access, requests⟩ := exists_decides member (prefix_refl entry)
    rw [accessAt_of_decides requests] at bounded
    have there : other = entry := requests.covers.eq_of_length_le
      (requests.covers_place member (prefix_refl entry)).length_le
    cases access with
    | read | deny => exact absurd bounded (by decide)
    | write => exact unwritten (there ▸ requests.rule)

end

/-! ### Distinct entries -/

variable {context : FileSystemSandboxPolicyContext} {entries : List FileSystemSandboxEntry}
  {entry : FileSystemSandboxEntry}

section

variable {more : List FileSystemSandboxEntry}

theorem sameEntry_self (entry : FileSystemSandboxEntry) : sameEntry entry entry = true := by
  apply decide_eq_true
  refine ⟨?_, rfl, rfl⟩
  cases entry.path with
  | path uri => rw [samePath, sameUri, if_pos rfl]
  | globPattern | special => exact decide_eq_true rfl

theorem mem_foldl_pushNew (member : entry ∈ more.foldl pushNew entries) :
    entry ∈ entries ∨ entry ∈ more := by
  induction more generalizing entries with
  | nil => exact .inl member
  | cons head tail ih =>
    cases ih member with
    | inr later => exact .inr (mem_cons_of_mem _ later)
    | inl pushed =>
      rw [pushNew] at pushed
      split at pushed
      · exact .inl pushed
      · cases mem_append.mp pushed with
        | inl old => exact .inl old
        | inr new => exact .inr (mem_singleton.mp new ▸ mem_cons_self)

theorem isPrefix_foldl_pushNew : entries <+: more.foldl pushNew entries := by
  induction more generalizing entries with
  | nil => exact prefix_refl _
  | cons head tail ih =>
    refine IsPrefix.trans ?_ ih
    rw [pushNew]
    split
    · exact prefix_refl _
    · exact prefix_append _ _

theorem exists_sameEntry_foldl (member : entry ∈ entries ∨ entry ∈ more) :
    ∃ present ∈ more.foldl pushNew entries, sameEntry present entry = true := by
  induction more generalizing entries with
  | nil =>
    cases member with
    | inl old => exact ⟨entry, old, sameEntry_self entry⟩
    | inr new => exact absurd new not_mem_nil
  | cons head tail ih =>
    by_cases now : entry = head
    · rw [now]
      by_cases known : entries.any (sameEntry · head) = true
      · obtain ⟨present, old, same⟩ := any_eq_true.mp known
        have kept : present ∈ pushNew entries head := by
          rw [pushNew, if_pos known]
          exact old
        exact ⟨present, isPrefix_foldl_pushNew.mem kept, same⟩
      · have kept : head ∈ pushNew entries head := by
          rw [pushNew, if_neg known]
          exact mem_append_right _ mem_cons_self
        exact ⟨head, isPrefix_foldl_pushNew.mem kept, sameEntry_self head⟩
    · apply ih
      cases member with
      | inr new => exact .inr ((mem_cons.mp new).resolve_left now)
      | inl old =>
        apply Or.inl
        rw [pushNew]
        split
        · exact old
        · exact mem_append_left _ old

variable {windowsJoin : PathUri → String → Option PathUri}

theorem exists_place_of_sameEntry {other : FileSystemSandboxEntry} {uri : PathUri}
    {place : List String} (same : sameEntry other entry = true)
    (named : uri ∈ entryPaths windowsJoin context entry) (placed : placeOf uri = some place) :
    ∃ otherUri ∈ entryPaths windowsJoin context other, placeOf otherUri = some place := by
  obtain ⟨paths, _, _⟩ := of_decide_eq_true same
  cases shape : entry.path with
  | path path =>
    obtain ⟨rfl, convention⟩ := (mem_entryPaths_of_path shape).mp named
    cases otherShape : other.path with
    | path otherPath =>
      rw [shape, otherShape] at paths
      have uri_at : Located (inferPathConvention context.cwd) uri place := ⟨convention, placed⟩
      have other_at := uri_at.of_sameUri
        ((inferPathConvention_of_sameUri paths).trans convention)
        ((sameUri_comm uri otherPath).trans paths)
      exact ⟨otherPath, (mem_entryPaths_of_path otherShape).mpr ⟨rfl, other_at.same⟩,
        other_at.found⟩
    | globPattern | special => simp [shape, otherShape, samePath] at paths
  | globPattern pattern =>
    rw [entryPaths, shape] at named
    cases named
  | special value =>
    cases otherShape : other.path with
    | path | globPattern => simp [shape, otherShape, samePath] at paths
    | special otherValue =>
      rw [shape, otherShape] at paths
      have equal : other.path = entry.path := by
        rw [shape, otherShape, of_decide_eq_true paths]
      refine ⟨uri, ?_, placed⟩
      rw [entryPaths, equal]
      exact named

theorem mem_rules_foldl_pushNew {place : List String} {access : FileSystemAccessMode} :
    (place, access) ∈ rulesOf windowsJoin (restricted (more.foldl pushNew entries)) context ↔
      (place, access) ∈ rulesOf windowsJoin (restricted entries) context ∨
        (place, access) ∈ rulesOf windowsJoin (restricted more) context := by
  simp only [rulesOf, mem_placeRules, mem_resolvedEntries_iff]
  constructor
  · rintro ⟨uri, ⟨entry, member, named, rfl⟩, placed⟩
    cases mem_foldl_pushNew member with
    | inl old => exact .inl ⟨uri, ⟨entry, old, named, rfl⟩, placed⟩
    | inr new => exact .inr ⟨uri, ⟨entry, new, named, rfl⟩, placed⟩
  · intro either
    obtain ⟨uri, entry, member, named, rfl, placed⟩ : ∃ uri entry,
        (entry ∈ entries ∨ entry ∈ more) ∧ uri ∈ entryPaths windowsJoin context entry ∧
          entry.access = access ∧ placeOf uri = some place := by
      rcases either with ⟨uri, ⟨entry, old, named, same⟩, placed⟩ |
        ⟨uri, ⟨entry, new, named, same⟩, placed⟩
      · exact ⟨uri, entry, .inl old, named, same, placed⟩
      · exact ⟨uri, entry, .inr new, named, same, placed⟩
    obtain ⟨present, listed, same⟩ := exists_sameEntry_foldl member
    obtain ⟨otherUri, otherNamed, otherPlaced⟩ := exists_place_of_sameEntry same named placed
    exact ⟨otherUri, ⟨present, listed, otherNamed, (of_decide_eq_true same).2.1⟩, otherPlaced⟩

end

/-! ### Materialized entries -/

def PosixEntry (entry : FileSystemSandboxEntry) : Prop :=
  (∃ path, entry.path = .path (fromAbsPath path)) ∨
    ∃ subpath, entry.path = .special (.projectRoots subpath)

variable (host : GlobHost)

def unresolvedDenial (context : FileSystemSandboxPolicyContext)
    (entry : FileSystemSandboxEntry) : Bool :=
  match entry.path with
  | .special (.projectRoots _) =>
    entry.access = .deny ∧ (context.workspaceRoots = [] ∨
        context.workspaceRoots.any fun root => (pathAtRoot host context entry root).isNone)
  | _ => false

def materializedEntries (context : FileSystemSandboxPolicyContext)
    (entries : List FileSystemSandboxEntry) : List FileSystemSandboxEntry :=
  entries.flatMap fun entry =>
    (resolvedPaths host.windowsJoin context entry.path).map (materializedPathEntry entry)

section

variable {host : GlobHost}

theorem filterMap_pathAtRoot {subpath : Option String}
    (shape : entry.path = .special (.projectRoots subpath)) :
    context.workspaceRoots.filterMap (pathAtRoot host context entry) =
      resolvedPaths host.windowsJoin context entry.path := by
  rw [shape]
  congr 1
  funext root
  rw [pathAtRoot, shape]
  cases subpath <;> rfl

theorem materializeEntry_eq (plain : PosixEntry entry) :
    materializeEntry host context entry =
      if unresolvedDenial host context entry then none
      else some ((resolvedPaths host.windowsJoin context entry.path).map
        (materializedPathEntry entry)) := by
  rcases plain with ⟨path, shape⟩ | ⟨subpath, shape⟩
  · have kept : materializedPathEntry entry (fromAbsPath path) = entry := by
      rw [materializedPathEntry, ← shape]
    rw [materializeEntry, unresolvedDenial]
    simp [materializeCwdDependentEntry, shape, resolvedPaths, kept]
  · rw [← filterMap_pathAtRoot shape, materializeEntry, unresolvedDenial, shape]
    simp

theorem materialize_eq_of_posix (plain : ∀ entry ∈ entries, PosixEntry entry) :
    materializeContextDependentEntries host context entries =
      if entries.any (unresolvedDenial host context) then none
      else some (materializedEntries host context entries) := by
  have each : entries.mapM (materializeEntry host context) =
      entries.mapM fun entry => if unresolvedDenial host context entry then none
        else some ((resolvedPaths host.windowsJoin context entry.path).map
          (materializedPathEntry entry)) := by
    induction entries with
    | nil => rfl
    | cons head tail ih =>
      rw [mapM_cons, mapM_cons, materializeEntry_eq (plain head mem_cons_self),
        ih fun entry member => plain entry (mem_cons_of_mem _ member)]
  rw [materializeContextDependentEntries, each, mapM_ite]
  split <;> rfl

section

variable (member : entry ∈ materializedEntries host context entries)
include member

theorem exists_path_of_materialized : ∃ uri, entry.path = .path uri := by
  obtain ⟨original, _, listed⟩ := mem_flatMap.mp member
  obtain ⟨uri, _, rfl⟩ := mem_map.mp listed
  exact ⟨uri, rfl⟩

theorem path_of_materialized {uri : PathUri}
    (named : uri ∈ entryPaths host.windowsJoin context entry) : entry.path = .path uri := by
  obtain ⟨path, shape⟩ := exists_path_of_materialized member
  rw [((mem_entryPaths_of_path shape).mp named).1, shape]

end

theorem mem_resolved_materialized_iff {resolved : PathUri × FileSystemAccessMode} :
    resolved ∈ resolvedEntries host.windowsJoin
      (restricted (materializedEntries host context entries))
        context ↔
      resolved ∈ resolvedEntries host.windowsJoin (restricted entries) context := by
  obtain ⟨uri, access⟩ := resolved
  rw [mem_resolvedEntries_iff, mem_resolvedEntries_iff]
  constructor
  · rintro ⟨entry, member, named, rfl⟩
    obtain ⟨original, listed, mapped⟩ := mem_flatMap.mp member
    obtain ⟨path, found, rfl⟩ := mem_map.mp mapped
    obtain ⟨rfl, convention⟩ := (mem_entryPaths_of_path rfl).mp named
    exact ⟨original, listed, mem_filter.mpr ⟨found, decide_eq_true convention⟩, rfl⟩
  · rintro ⟨entry, listed, named, rfl⟩
    obtain ⟨found, convention⟩ := mem_filter.mp named
    refine ⟨materializedPathEntry entry uri, mem_flatMap.mpr ⟨entry, listed,
      mem_map.mpr ⟨uri, found, rfl⟩⟩, ?_, rfl⟩
    exact (mem_entryPaths_of_path rfl).mpr ⟨rfl, of_decide_eq_true convention⟩

theorem resolveAccess_materialized (path : PathUri) :
    resolveAccess host.windowsJoin (restricted (materializedEntries host context entries)) path
        context =
      resolveAccess host.windowsJoin (restricted entries) path context := by
  apply resolveAccess_congr rfl rfl
  intro resolved
  exact mem_resolved_materialized_iff

end

/-! ### Kept grants -/

theorem accessCovers_iff {requested granted : FileSystemAccessMode} :
    accessCovers requested granted = true ↔
      granted ≠ .deny ∧ capability granted ≤ capability requested := by
  cases requested <;> cases granted <;> decide

/-- A granted path that stays: the request covers it, and no denial of the request other than that
of the filesystem root lies over it. -/
structure KeptGrant (context : FileSystemSandboxPolicyContext)
    (requested granted : List FileSystemSandboxEntry) (uri : PathUri)
    (access : FileSystemAccessMode) : Prop where
  member : (uri, access) ∈ resolvedEntries host.windowsJoin (restricted granted) context
  covered : accessCovers (resolveAccess host.windowsJoin (restricted requested) uri context)
    access = true
  undenied : ∀ denial,
    (denial, .deny) ∈ resolvedEntries host.windowsJoin (restricted requested) context →
      isFileSystemRoot context denial = false → startsWith uri denial = false

variable {permissions : FileSystemPermissions}

section

variable {host : GlobHost} {requested granted : List FileSystemSandboxEntry} {uri : PathUri}
  {cwdPlace place : List String}

theorem located_of_covered
    (covered : accessCovers (resolveAccess host.windowsJoin (restricted requested) uri context)
      access = true) :
    ∃ cwdPlace place, placeOf context.cwd = some cwdPlace ∧
      Located (inferPathConvention context.cwd) uri place := by
  have readable : resolveAccess host.windowsJoin (restricted requested) uri context ≠ .deny := by
    intro refused
    rw [refused] at covered
    cases access <;> cases covered
  obtain ⟨cwdPlace, place, cwd_at, uri_at, _⟩ := clear_of_granted rfl readable
  exact ⟨cwdPlace, place, cwd_at, uri_at⟩

theorem any_readDenyMatcher (concrete : ∀ entry ∈ entries, ∃ uri, entry.path = .path uri)
    (cwd_at : placeOf context.cwd = some cwdPlace)
    (uri_at : Located (inferPathConvention context.cwd) uri place) :
    (readDenyMatcher host context (restricted entries)).any
        (matchesPreparedReadDeny host context uri) = true ↔
      ∃ denial, (denial, .deny) ∈ resolvedEntries host.windowsJoin (restricted entries) context ∧
        isFileSystemRoot context denial = false ∧ startsWith uri denial = true := by
  have literal : deniedPatterns (restricted entries) = [] := by
    apply filterMap_eq_nil_iff.mpr
    intro entry member
    obtain ⟨path, shape⟩ := concrete entry member
    rw [shape]
    split <;> rfl
  rw [readDenyMatcher]
  split
  · rw [prepareDenyReadMatcher_of_literal literal, Except.toOption, Option.any_some,
      matches_roots_of_located cwd_at uri_at]
    simp [mem_deniedRootsOf, and_assoc]
  · rename_i harmless
    refine iff_of_false Bool.false_ne_true ?_
    rintro ⟨denial, resolved, _, _⟩
    obtain ⟨entry, member, _, denies⟩ := mem_resolvedEntries_iff.mp resolved
    exact harmless (any_eq_true.mpr ⟨entry, member, decide_eq_true denies⟩)

theorem within_concrete_iff {policy : FileSystemSandboxPolicy}
    {matcher : Option PreparedReadDenyMatcher} (shape : entry.path = .path uri) :
    grantedFileSystemEntryWithinRequest host context permissions policy matcher entry = true ↔
      inferPathConvention uri = inferPathConvention context.cwd ∧
        ¬ matcher.any (matchesPreparedReadDeny host context uri) = true ∧
        accessCovers (resolveAccess host.windowsJoin policy uri context) entry.access = true := by
  cases access : entry.access <;>
    simp [grantedFileSystemEntryWithinRequest, shape, isRootEntry, resolvePermissionPath, access,
      FileSystemAccessMode.canRead, accessCovers, and_assoc]

theorem within_iff_kept (shape : entry.path = .path uri)
    (member : (uri, entry.access) ∈ resolvedEntries host.windowsJoin (restricted granted) context) :
    grantedFileSystemEntryWithinRequest host context permissions
        (restricted (materializedEntries host context requested))
        (readDenyMatcher host context (restricted (materializedEntries host context requested)))
        entry = true ↔
      KeptGrant host context requested granted uri entry.access := by
  have concrete : ∀ entry ∈ materializedEntries host context requested,
      ∃ uri, entry.path = .path uri := fun _ => exists_path_of_materialized
  rw [within_concrete_iff shape, and_iff_right (same_convention_of_resolved member),
    resolveAccess_materialized]
  constructor
  · rintro ⟨unmatched, covered⟩
    obtain ⟨cwdPlace, place, cwd_at, uri_at⟩ := located_of_covered covered
    refine ⟨member, covered, ?_⟩
    intro denial denies proper
    by_contra inside
    apply unmatched
    exact (any_readDenyMatcher concrete cwd_at uri_at).mpr
      ⟨denial, mem_resolved_materialized_iff.mpr denies, proper, Bool.eq_true_of_not_eq_false inside⟩
  · intro kept
    refine ⟨?_, kept.covered⟩
    intro matched
    obtain ⟨cwdPlace, place, cwd_at, uri_at⟩ := located_of_covered kept.covered
    obtain ⟨denial, denies, proper, inside⟩ :=
      (any_readDenyMatcher concrete cwd_at uri_at).mp matched
    have outside := kept.undenied denial (mem_resolved_materialized_iff.mp denies) proper
    rw [inside] at outside
    cases outside

def KeptRule (host : GlobHost) (context : FileSystemSandboxPolicyContext)
    (requested granted : List FileSystemSandboxEntry) (place : List String)
    (access : FileSystemAccessMode) : Prop :=
  ∃ uri, KeptGrant host context requested granted uri access ∧ placeOf uri = some place

def acceptedGrants (host : GlobHost) (context : FileSystemSandboxPolicyContext)
    (permissions : FileSystemPermissions) (granted : List FileSystemSandboxEntry) :
    List FileSystemSandboxEntry :=
  acceptedEntries host context permissions (materializedEntries host context permissions.entries)
    (materializedEntries host context granted)

theorem mem_rules_accepted :
    (place, access) ∈
        rulesOf host.windowsJoin (restricted (acceptedGrants host context permissions granted))
          context ↔
      KeptRule host context permissions.entries granted place access := by
  rw [acceptedGrants, acceptedEntries, mem_rules_foldl_pushNew]
  have none_before :
      (place, access) ∉ rulesOf host.windowsJoin (restricted []) context := not_mem_nil
  rw [or_iff_right none_before, rulesOf, mem_placeRules]
  apply exists_congr
  intro uri
  apply and_congr_left
  intro _
  rw [mem_resolvedEntries_iff]
  constructor
  · rintro ⟨entry, listed, named, rfl⟩
    obtain ⟨member, within⟩ := mem_filter.mp listed
    have shape := path_of_materialized member named
    have resolved := mem_resolved_materialized_iff.mp
      (mem_resolvedEntries_iff.mpr ⟨entry, member, named, rfl⟩)
    exact (within_iff_kept shape resolved).mp within
  · intro kept
    obtain ⟨entry, member, named, rfl⟩ :=
      mem_resolvedEntries_iff.mp (mem_resolved_materialized_iff.mpr kept.member)
    have shape := path_of_materialized member named
    exact ⟨entry, mem_filter.mpr ⟨member, (within_iff_kept shape kept.member).mpr kept⟩, named, rfl⟩

theorem located_of_accepted (member : entry ∈ acceptedGrants host context permissions granted) :
    ∃ uri place, entry.path = .path uri ∧ entry.access ≠ .deny ∧
      Located (inferPathConvention context.cwd) uri place := by
  have listed := (mem_foldl_pushNew member).resolve_left not_mem_nil
  obtain ⟨origin, within⟩ := mem_filter.mp listed
  obtain ⟨uri, shape⟩ := exists_path_of_materialized origin
  obtain ⟨_, _, covered⟩ := (within_concrete_iff shape).mp within
  obtain ⟨_, place, _, uri_at⟩ := located_of_covered covered
  exact ⟨uri, place, shape, (accessCovers_iff.mp covered).1, uri_at⟩

theorem pathsOverlap_iff {convention : Option PathConvention} {left right : PathUri}
    {leftPlace rightPlace : List String} (left_at : Located convention left leftPlace)
    (right_at : Located convention right rightPlace) :
    pathsOverlap left right = true ↔ leftPlace <+: rightPlace ∨ rightPlace <+: leftPlace := by
  rw [pathsOverlap]
  split
  · rename_i same
    rw [(left_at.sameUri_iff right_at).mp same]
    exact iff_of_true rfl (.inl (prefix_refl _))
  · rw [lexicalDepth_eq, lexicalDepth_eq, left_at.found, right_at.found]
    simp only [Option.map_some, reduceCtorEq, or_self, if_false, Bool.or_eq_true]
    rw [left_at.startsWith_iff right_at, right_at.startsWith_iff left_at, or_comm]

theorem constrains_iff {denial : FileSystemSandboxEntry} (shape : denial.path = .path uri)
    (uri_at : Located (inferPathConvention context.cwd) uri place) :
    denyEntryConstrainsAcceptedGrant host context denial
        (acceptedGrants host context permissions granted) = true ↔
      ∃ grant mode, KeptRule host context permissions.entries granted grant mode ∧
        (place <+: grant ∨ grant <+: place) := by
  rw [denyEntryConstrainsAcceptedGrant, any_eq_true]
  constructor
  · rintro ⟨entry, listed, overlaps⟩
    obtain ⟨member, _⟩ := mem_filter.mp listed
    obtain ⟨path, grant, grantShape, _, path_at⟩ := located_of_accepted member
    refine ⟨grant, entry.access, mem_rules_accepted.mp ?_, ?_⟩
    · exact mem_placeRules.mpr ⟨path, mem_resolvedEntries_iff.mpr ⟨entry, member,
        (mem_entryPaths_of_path grantShape).mpr ⟨rfl, path_at.same⟩, rfl⟩, path_at.found⟩
    · simp only [isRootEntry, grantShape, shape] at overlaps
      exact (pathsOverlap_iff uri_at path_at).mp overlaps
  · rintro ⟨grant, mode, kept, comparable⟩
    obtain ⟨path, resolved, placed⟩ := mem_placeRules.mp (mem_rules_accepted.mpr kept)
    have path_at := located_of_resolved resolved placed
    obtain ⟨entry, member, named, rfl⟩ := mem_resolvedEntries_iff.mp resolved
    obtain ⟨other, _, grantShape, readable, _⟩ := located_of_accepted member
    obtain ⟨rfl, _⟩ := (mem_entryPaths_of_path grantShape).mp named
    refine ⟨entry, mem_filter.mpr ⟨member, decide_eq_true readable⟩, ?_⟩
    simp only [isRootEntry, grantShape, shape]
    exact (pathsOverlap_iff uri_at path_at).mpr comparable

theorem mem_rules_retained {source : List FileSystemSandboxEntry} :
    (place, access) ∈ rulesOf host.windowsJoin (restricted (retainedDenyEntries host context
        (materializedEntries host context source)
        (acceptedGrants host context permissions granted))) context ↔
      access = .deny ∧ (place, .deny) ∈ rulesOf host.windowsJoin (restricted source) context ∧
        ∃ grant mode, KeptRule host context permissions.entries granted grant mode ∧
          (place <+: grant ∨ grant <+: place) := by
  simp only [rulesOf, mem_placeRules]
  constructor
  · rintro ⟨uri, resolved, placed⟩
    have uri_at := located_of_resolved resolved placed
    obtain ⟨entry, listed, named, rfl⟩ := mem_resolvedEntries_iff.mp resolved
    obtain ⟨member, kept⟩ := mem_filter.mp listed
    obtain ⟨denies, constrains⟩ := of_decide_eq_true kept
    have shape := path_of_materialized member named
    refine ⟨denies, ⟨uri, ?_, placed⟩, (constrains_iff shape uri_at).mp constrains⟩
    exact mem_resolved_materialized_iff.mp
      (mem_resolvedEntries_iff.mpr ⟨entry, member, named, denies⟩)
  · rintro ⟨rfl, ⟨uri, resolved, placed⟩, constrained⟩
    have uri_at := located_of_resolved resolved placed
    obtain ⟨entry, member, named, denies⟩ :=
      mem_resolvedEntries_iff.mp (mem_resolved_materialized_iff.mpr resolved)
    have shape := path_of_materialized member named
    have constrains := (constrains_iff shape uri_at).mpr constrained
    exact ⟨uri, mem_resolvedEntries_iff.mpr ⟨entry, mem_filter.mpr
      ⟨member, decide_eq_true ⟨denies, constrains⟩⟩, named, denies⟩, placed⟩

def approvedEntries (host : GlobHost) (context : FileSystemSandboxPolicyContext)
    (permissions : FileSystemPermissions) (granted : List FileSystemSandboxEntry) :
    List FileSystemSandboxEntry :=
  intersectedEntries (acceptedGrants host context permissions granted)
    (retainedDenyEntries host context (materializedEntries host context permissions.entries)
      (acceptedGrants host context permissions granted))
    (retainedDenyEntries host context (materializedEntries host context granted)
      (acceptedGrants host context permissions granted))

def ProperDenial (host : GlobHost) (context : FileSystemSandboxPolicyContext)
    (requested : List FileSystemSandboxEntry) (place : List String) : Prop :=
  ∃ denial, (denial, .deny) ∈ resolvedEntries host.windowsJoin (restricted requested) context ∧
    isFileSystemRoot context denial = false ∧ placeOf denial = some place

theorem keptRule_iff (cwd_at : placeOf context.cwd = some cwdPlace)
    (clear : Clear (resolvedEntries host.windowsJoin (restricted requested) context)) :
    KeptRule host context requested granted place access ↔
      (place, access) ∈ rulesOf host.windowsJoin (restricted granted) context ∧ access ≠ .deny ∧
        capability access ≤
          capability (accessAt (rulesOf host.windowsJoin (restricted requested) context) place) ∧
        ∀ denial, (denial, .deny) ∈ rulesOf host.windowsJoin (restricted requested) context →
          ProperDenial host context requested denial → ¬ denial <+: place := by
  have access_at : ∀ {uri}, Located (inferPathConvention context.cwd) uri place →
      resolveAccess host.windowsJoin (restricted requested) uri context =
        accessAt (rulesOf host.windowsJoin (restricted requested) context) place :=
    fun uri_at => resolveAccess_eq rfl cwd_at uri_at clear
  constructor
  · rintro ⟨uri, kept, placed⟩
    have uri_at := located_of_resolved kept.member placed
    obtain ⟨readable, bounded⟩ := accessCovers_iff.mp kept.covered
    rw [access_at uri_at] at bounded
    refine ⟨mem_placeRules.mpr ⟨uri, kept.member, placed⟩, readable, bounded, ?_⟩
    rintro place' _ ⟨denial, denies, proper, found⟩ covers
    have outside := kept.undenied denial denies proper
    rw [(uri_at.startsWith_iff (located_of_resolved denies found)).mpr covers] at outside
    cases outside
  · rintro ⟨rule, readable, bounded, undenied⟩
    obtain ⟨uri, member, placed⟩ := mem_placeRules.mp rule
    have uri_at := located_of_resolved member placed
    refine ⟨uri, ⟨member, accessCovers_iff.mpr ⟨readable, by rw [access_at uri_at]; exact bounded⟩,
      ?_⟩, placed⟩
    intro denial denies proper
    by_contra inside
    have starts := Bool.eq_true_of_not_eq_false inside
    obtain ⟨denialPlace, denial_at⟩ := uri_at.exists_of_startsWith starts
    exact undenied denialPlace (mem_placeRules.mpr ⟨denial, denies, denial_at.found⟩)
      ⟨denial, denies, proper, denial_at.found⟩ ((uri_at.startsWith_iff denial_at).mp starts)

section

variable (clear : Clear (resolvedEntries host.windowsJoin (restricted permissions.entries) context))
include clear

theorem approved_intersects (cwd_at : placeOf context.cwd = some cwdPlace) :
    Intersects (rulesOf host.windowsJoin (restricted permissions.entries) context)
      (rulesOf host.windowsJoin (restricted granted) context)
      (rulesOf host.windowsJoin (restricted (approvedEntries host context permissions granted))
        context)
      (ProperDenial host context permissions.entries)
      (KeptRule host context permissions.entries granted) where
  kept_iff place access := keptRule_iff cwd_at clear
  rule_iff place access := by
    rw [approvedEntries, intersectedEntries, mem_rules_foldl_pushNew, mem_rules_foldl_pushNew,
      mem_rules_accepted, mem_rules_retained, mem_rules_retained, or_assoc, ← and_or_left,
      ← or_and_right]

theorem clear_approved
    (clearGranted : Clear (resolvedEntries host.windowsJoin (restricted granted) context)) :
    Clear (resolvedEntries host.windowsJoin
      (restricted (approvedEntries host context permissions granted)) context) := by
  have origin : ∀ entry ∈ approvedEntries host context permissions granted,
      entry ∈ materializedEntries host context permissions.entries ∨
        entry ∈ materializedEntries host context granted := by
    intro entry member
    rcases mem_foldl_pushNew member with early | ofGranted
    · rcases mem_foldl_pushNew early with accepted | ofRequested
      · exact .inr (mem_filter.mp ((mem_foldl_pushNew accepted).resolve_left not_mem_nil)).1
      · exact .inl (mem_filter.mp ofRequested).1
    · exact .inr (mem_filter.mp ofGranted).1
  rintro ⟨uri, access⟩ member
  obtain ⟨entry, listed, named, same⟩ := mem_resolvedEntries_iff.mp member
  cases origin entry listed with
  | inl ofRequested =>
    exact clear _ (mem_resolved_materialized_iff.mp
      (mem_resolvedEntries_iff.mpr ⟨entry, ofRequested, named, same⟩))
  | inr ofGranted =>
    exact clearGranted _ (mem_resolved_materialized_iff.mp
      (mem_resolvedEntries_iff.mpr ⟨entry, ofGranted, named, same⟩))

end

theorem clear_of_posix {roots : List HostPath}
    (posix : inferPathConvention context.cwd = some .posix)
    (workspace : context.workspaceRoots = roots.map fromAbsPath)
    (plain : ∀ entry ∈ entries, PosixEntry entry) :
    Clear (resolvedEntries host.windowsJoin (restricted entries) context) := by
  rintro ⟨uri, access⟩ member placeless
  have convention := (same_convention_of_resolved member).trans posix
  obtain ⟨entry, listed, named, _⟩ := mem_resolvedEntries_iff.mp member
  rcases plain entry listed with ⟨path, shape⟩ | ⟨subpath, shape⟩
  · obtain ⟨rfl, _⟩ := (mem_entryPaths_of_path shape).mp named
    exact isOpaque_of_placeless path placeless
  · have found := (mem_filter.mp named).1
    rw [shape, resolvedPaths, workspace] at found
    obtain ⟨root, rooted, joined⟩ := mem_filterMap.mp found
    obtain ⟨path, _, rfl⟩ := mem_map.mp rooted
    cases subpath with
    | none =>
      cases joined
      exact isOpaque_of_placeless path placeless
    | some subpath => exact isOpaque_of_joined joined convention placeless

/-- A requested read entry narrows a kept write grant over it: no requested write entry is at the
same path, and neither a denial nor a kept read grant lies between. -/
structure NarrowsPath (host : GlobHost) (context : FileSystemSandboxPolicyContext)
    (requested granted : List FileSystemSandboxEntry) (entry grant : PathUri) : Prop where
  unwritten : ∀ write,
    (write, .write) ∈ resolvedEntries host.windowsJoin (restricted requested) context →
      sameUri entry write = false
  undenied : ∀ denial,
    ((denial, .deny) ∈ resolvedEntries host.windowsJoin (restricted requested) context ∨
      (denial, .deny) ∈ resolvedEntries host.windowsJoin (restricted granted) context) →
      startsWith denial grant = true → startsWith entry denial = false
  unread : ∀ other, KeptGrant host context requested granted other .read →
    startsWith other grant = true → sameUri other grant = false → startsWith entry other = false

theorem narrowsPath_iff {entry grant : PathUri} {entryPlace grantPlace : List String}
    (entry_at : Located (inferPathConvention context.cwd) entry entryPlace)
    (grant_at : Located (inferPathConvention context.cwd) grant grantPlace) :
    NarrowsPath host context requested granted entry grant ↔
      Narrows (rulesOf host.windowsJoin (restricted requested) context)
        (rulesOf host.windowsJoin (restricted granted) context)
        (KeptRule host context requested granted) entryPlace grantPlace := by
  constructor
  · intro narrows
    refine ⟨?_, ?_, ?_⟩
    · intro writes
      obtain ⟨write, resolved, placed⟩ := mem_placeRules.mp writes
      have apart := narrows.unwritten write resolved
      rw [(entry_at.sameUri_iff (located_of_resolved resolved placed)).mpr rfl] at apart
      cases apart
    · intro denialPlace denies below above
      obtain ⟨denial, resolved, denial_at⟩ : ∃ denial,
          ((denial, .deny) ∈ resolvedEntries host.windowsJoin (restricted requested) context ∨
            (denial, .deny) ∈ resolvedEntries host.windowsJoin (restricted granted) context) ∧
          Located (inferPathConvention context.cwd) denial denialPlace := by
        rcases denies with rule | rule
        · obtain ⟨denial, resolved, placed⟩ := mem_placeRules.mp rule
          exact ⟨denial, .inl resolved, located_of_resolved resolved placed⟩
        · obtain ⟨denial, resolved, placed⟩ := mem_placeRules.mp rule
          exact ⟨denial, .inr resolved, located_of_resolved resolved placed⟩
      have outside := narrows.undenied denial resolved ((denial_at.startsWith_iff grant_at).mpr below)
      rw [(entry_at.startsWith_iff denial_at).mpr above] at outside
      cases outside
    · rintro otherPlace ⟨other, kept, placed⟩ below apart above
      have other_at := located_of_resolved kept.member placed
      have outside := narrows.unread other kept ((other_at.startsWith_iff grant_at).mpr below)
        (Bool.eq_false_iff.mpr fun same => apart ((other_at.sameUri_iff grant_at).mp same))
      rw [(entry_at.startsWith_iff other_at).mpr above] at outside
      cases outside
  · rintro ⟨unwritten, undenied, unread⟩
    refine ⟨?_, ?_, ?_⟩
    · intro write resolved
      by_contra same
      have write_at := entry_at.of_sameUri (same_convention_of_resolved resolved)
        (Bool.eq_true_of_not_eq_false same)
      exact unwritten (mem_placeRules.mpr ⟨write, resolved, write_at.found⟩)
    · intro denial denies below
      by_contra above
      have starts := Bool.eq_true_of_not_eq_false above
      obtain ⟨denialPlace, denial_at⟩ := entry_at.exists_of_startsWith starts
      refine undenied denialPlace ?_ ((denial_at.startsWith_iff grant_at).mp below)
        ((entry_at.startsWith_iff denial_at).mp starts)
      exact denies.imp (fun resolved => mem_placeRules.mpr ⟨denial, resolved, denial_at.found⟩)
        fun resolved => mem_placeRules.mpr ⟨denial, resolved, denial_at.found⟩
    · intro other kept below apart
      by_contra above
      have starts := Bool.eq_true_of_not_eq_false above
      obtain ⟨otherPlace, other_at⟩ := entry_at.exists_of_startsWith starts
      refine unread otherPlace ⟨other, kept, other_at.found⟩
        ((other_at.startsWith_iff grant_at).mp below) ?_
          ((entry_at.startsWith_iff other_at).mp starts)
      intro same
      rw [(other_at.sameUri_iff grant_at).mpr same] at apart
      cases apart

def Bounded (host : GlobHost) (context : FileSystemSandboxPolicyContext)
    (requested granted result : List FileSystemSandboxEntry) (path : PathUri) : Prop :=
  capability (resolveAccess host.windowsJoin (restricted result) path context) ≤
      capability (resolveAccess host.windowsJoin (restricted requested) path context) ∧
    capability (resolveAccess host.windowsJoin (restricted result) path context) ≤
      capability (resolveAccess host.windowsJoin (restricted granted) path context)

theorem approved_bounded_iff
    (clear : Clear (resolvedEntries host.windowsJoin (restricted permissions.entries) context))
    (clearGranted : Clear (resolvedEntries host.windowsJoin (restricted granted) context)) :
    (∀ path, Bounded host context permissions.entries granted
        (approvedEntries host context permissions granted) path) ↔
      ∀ entry, (entry, .read) ∈
          resolvedEntries host.windowsJoin (restricted permissions.entries) context →
        ∀ grant, KeptGrant host context permissions.entries granted grant .write →
          startsWith entry grant = true →
          ¬ NarrowsPath host context permissions.entries granted entry grant := by
  have clearApproved := clear_approved clear clearGranted
  constructor
  · intro bounded entry member grant kept inside
    obtain ⟨cwdPlace, grantPlace, cwd_at, grant_at⟩ := located_of_covered kept.covered
    have convention := same_convention_of_resolved member
    obtain ⟨entryPlace, entry_at⟩ :
        ∃ place, Located (inferPathConvention context.cwd) entry place := by
      cases placed : placeOf entry with
      | some place => exact ⟨place, convention, placed⟩
      | none =>
        rw [eq_of_startsWith_placeless placed inside]
        exact ⟨grantPlace, grant_at⟩
    have below := (bounded entry).1
    rw [resolveAccess_eq rfl cwd_at entry_at clear,
      resolveAccess_eq rfl cwd_at entry_at clearApproved] at below
    rw [narrowsPath_iff entry_at grant_at]
    exact not_narrows_of_le (approved_intersects clear cwd_at)
      (mem_placeRules.mpr ⟨entry, member, entry_at.found⟩) ⟨grant, kept, grant_at.found⟩
      ((entry_at.startsWith_iff grant_at).mp inside) below
  · intro wide path
    by_cases refused : resolveAccess host.windowsJoin
        (restricted (approvedEntries host context permissions granted)) path context = .deny
    · rw [Bounded, refused]
      exact ⟨Nat.zero_le _, Nat.zero_le _⟩
    · obtain ⟨cwdPlace, place, cwd_at, path_at, _⟩ := clear_of_granted rfl refused
      have intersects : Intersects _ _ _ _ (KeptRule host context permissions.entries granted) :=
        approved_intersects clear cwd_at
      rw [Bounded, resolveAccess_eq rfl cwd_at path_at clearApproved,
        resolveAccess_eq rfl cwd_at path_at clear, resolveAccess_eq rfl cwd_at path_at clearGranted]
      refine ⟨capability_le_requested intersects ?_ place, capability_le_granted intersects place⟩
      rintro entryPlace member grantPlace ⟨grant, kept, grantPlaced⟩ below
      obtain ⟨entry, resolved, entryPlaced⟩ := mem_placeRules.mp member
      have entry_at := located_of_resolved resolved entryPlaced
      have grant_at := located_of_resolved kept.member grantPlaced
      rw [← narrowsPath_iff entry_at grant_at]
      exact wide entry resolved grant kept ((entry_at.startsWith_iff grant_at).mpr below)

theorem bounded_of_empty (requested granted : List FileSystemSandboxEntry) (path : PathUri) :
    Bounded host context requested granted [] path := by
  have refused : resolveAccess host.windowsJoin (restricted []) path context = .deny :=
    resolveAccess_empty path
  rw [Bounded, refused]
  exact ⟨Nat.zero_le _, Nat.zero_le _⟩

end

theorem entries_of_nonempty (permissions : FileSystemPermissions) :
    (((some permissions).filter fun permissions => !permissions.entries.isEmpty).map
      FileSystemPermissions.entries).getD [] = permissions.entries := by
  obtain ⟨entries, depth⟩ := permissions
  cases entries <;> rfl

theorem entries_of_intersection {host : GlobHost} {context : FileSystemSandboxPolicyContext}
    {requested granted : AdditionalPermissionProfile}
    (asked : requested.fileSystem = some permissions)
    (plain : ∀ entry ∈ permissions.entries, PosixEntry entry)
    (plainGranted : ∀ entry ∈ granted.entries, PosixEntry entry) :
    (intersectPermissionProfilesWithContext host context requested granted).entries =
      if (permissions.entries ++ granted.entries).any (unresolvedDenial host context) then []
      else approvedEntries host context permissions granted.entries := by
  have grants : (granted.fileSystem.getD ⟨[], none⟩).entries = granted.entries := by
    rw [AdditionalPermissionProfile.entries]
    cases granted.fileSystem <;> rfl
  rw [intersectPermissionProfilesWithContext, asked]
  simp only [Option.bind_some, intersectFileSystem, grants, materialize_eq_of_posix plain,
    materialize_eq_of_posix plainGranted, any_append]
  cases permissions.entries.any (unresolvedDenial host context) with
  | true => rfl
  | false =>
    cases granted.entries.any (unresolvedDenial host context) with
    | true => rfl
    | false =>
      exact entries_of_nonempty _

/-- The approved permissions stay within the request and within the grant, for every path, exactly
if some denial on workspace roots cannot be resolved or no requested read entry narrows a kept
write grant. -/
theorem approved_permissions_bounded_iff (host : GlobHost) (cwd : PathUri)
    (posix : inferPathConvention cwd = some .posix) (roots : List HostPath)
    (temporaryDirectories : Option (List PathUri)) (requested granted : AdditionalPermissionProfile)
    (plain : ∀ entry ∈ requested.entries, PosixEntry entry)
    (plainGranted : ∀ entry ∈ granted.entries, PosixEntry entry) :
    (∀ path, Bounded host (rootsContext cwd roots temporaryDirectories) requested.entries
        granted.entries
        (intersectPermissionProfilesWithContext host (rootsContext cwd roots temporaryDirectories)
          requested granted).entries path) ↔
      (requested.entries ++ granted.entries).any
          (unresolvedDenial host (rootsContext cwd roots temporaryDirectories)) = true ∨
        ∀ entry, (entry, .read) ∈ resolvedEntries host.windowsJoin (restricted requested.entries)
            (rootsContext cwd roots temporaryDirectories) →
          ∀ grant, KeptGrant host (rootsContext cwd roots temporaryDirectories) requested.entries
              granted.entries grant .write →
            startsWith entry grant = true →
            ¬ NarrowsPath host (rootsContext cwd roots temporaryDirectories) requested.entries
              granted.entries entry grant := by
  have clear : Clear (resolvedEntries host.windowsJoin (restricted requested.entries)
      (rootsContext cwd roots temporaryDirectories)) := clear_of_posix posix rfl plain
  have clearGranted : Clear (resolvedEntries host.windowsJoin (restricted granted.entries)
      (rootsContext cwd roots temporaryDirectories)) := clear_of_posix posix rfl plainGranted
  cases asked : requested.fileSystem with
  | none =>
    have nothing : requested.entries = [] := by rw [AdditionalPermissionProfile.entries, asked]; rfl
    have result : (intersectPermissionProfilesWithContext host
        (rootsContext cwd roots temporaryDirectories) requested granted).entries = [] := by
      rw [intersectPermissionProfilesWithContext, asked]
      rfl
    rw [result]
    refine iff_of_true (fun path => bounded_of_empty _ _ path) (.inr ?_)
    rw [nothing]
    nofun
  | some permissions =>
    have same : requested.entries = permissions.entries := by
      rw [AdditionalPermissionProfile.entries, asked]
      rfl
    rw [same] at plain clear ⊢
    rw [entries_of_intersection asked plain plainGranted]
    cases unresolved : (permissions.entries ++ granted.entries).any
        (unresolvedDenial host (rootsContext cwd roots temporaryDirectories)) with
    | true => exact iff_of_true (fun path => bounded_of_empty _ _ path) (.inl rfl)
    | false =>
      rw [or_iff_right Bool.false_ne_true]
      exact approved_bounded_iff clear clearGranted

/-! ### Two approvals -/

def bareHost : GlobHost where
  windowsJoin _ _ := none
  windowsGlobDirectory _ := false
  nativePathString _ := ""
  userHomeDir := none
  isAbsoluteText _ _ := true
  globDirectoryError _ _ := "no glob"
  compileGlob _ _ _ := .error "no glob"

def sitePath : HostPath := ⟨["site"], by decide⟩

def vendorPath : HostPath := ⟨["site", "vendor"], by decide⟩

def siteContext : FileSystemSandboxPolicyContext :=
  rootsContext (fromAbsPath sitePath) [sitePath] none

def profileOf (entries : List FileSystemSandboxEntry) : AdditionalPermissionProfile where
  network := none
  fileSystem := some ⟨entries, none⟩

def siteWrite : FileSystemSandboxEntry := { path := .path (fromAbsPath sitePath), access := .write }

def vendorRead : FileSystemSandboxEntry := { path := .path (fromAbsPath vendorPath), access := .read }

theorem posix_of_mem (listed : ∀ entry ∈ entries, entry = siteWrite ∨ entry = vendorRead) :
    ∀ entry ∈ entries, PosixEntry entry := by
  intro entry member
  rcases listed entry member with rfl | rfl
  · exact .inl ⟨sitePath, rfl⟩
  · exact .inl ⟨vendorPath, rfl⟩

theorem vendor_grant_bounded :
    Bounded bareHost siteContext [siteWrite] [siteWrite, vendorRead]
      (intersectPermissionProfilesWithContext bareHost siteContext (profileOf [siteWrite])
        (profileOf [siteWrite, vendorRead])).entries (fromAbsPath vendorPath) := by
  refine (approved_permissions_bounded_iff bareHost (fromAbsPath sitePath) rfl [sitePath] none
    (profileOf [siteWrite]) (profileOf [siteWrite, vendorRead])
    (posix_of_mem (by decide)) (posix_of_mem (by decide))).mpr (.inr ?_) (fromAbsPath vendorPath)
  intro entry member
  obtain ⟨other, listed, _, reads⟩ := mem_resolvedEntries_iff.mp member
  rw [mem_singleton.mp listed] at reads
  cases reads

/-- A write grant is kept whole, and the narrower read entry of the request is lost. -/
theorem requested_read_lost :
    resolveAccess bareHost.windowsJoin (restricted [siteWrite, vendorRead]) (fromAbsPath vendorPath)
        siteContext = .read ∧
      resolveAccess bareHost.windowsJoin
        (restricted (intersectPermissionProfilesWithContext bareHost siteContext
          (profileOf [siteWrite, vendorRead]) (profileOf [siteWrite])).entries)
        (fromAbsPath vendorPath) siteContext = .write := by
  decide

end OpenInterpreter.ApprovedPermissions
