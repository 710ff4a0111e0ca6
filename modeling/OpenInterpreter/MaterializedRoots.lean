import OpenInterpreter.LocalPolicy
import OpenInterpreter.ProjectRoots

/-! Access under a materialized policy against access under the symbolic one, on a POSIX
executor. -/

namespace OpenInterpreter.MaterializedRoots

open List Option

open ExecutorPath SandboxAccess PrefixRules PolicyPlaces LocalPaths LocalPolicy ProjectRoots

def capability : FileSystemAccessMode → Nat
  | .deny => 0
  | .read => 1
  | .write => 2

def accessAt (rules : AccessRules) (place : List String) : FileSystemAccessMode :=
  (resolve rules place).getD .deny

theorem accessAt_of_decides {rules : AccessRules} {place decider : List String}
    {access : FileSystemAccessMode} (decides : Decides rules place decider access) :
    accessAt rules place = access := by
  rw [accessAt, resolve_eq_some.mpr ⟨decider, decides⟩]
  rfl

theorem exists_decider {rules : AccessRules} {place : List String}
    (granted : accessAt rules place ≠ .deny) :
    ∃ decider, Decides rules place decider (accessAt rules place) := by
  cases resolved : resolve rules place with
  | none => exact absurd (by rw [accessAt, resolved]; rfl) granted
  | some access =>
    have same : accessAt rules place = access := by rw [accessAt, resolved]; rfl
    rw [same]
    exact resolve_eq_some.mp resolved

section

variable {kept outside fallback : AccessRules}

def Shadowed (kept fallback : AccessRules) (place : List String) : Prop :=
  ∃ root ∈ fallback, root.1 <+: place ∧ ∀ rule ∈ kept, rule.1 <+: place → rule.1 <+: root.1

variable {place : List String}

theorem accessAt_of_not_shadowed (unshadowed : ¬ Shadowed kept fallback place) :
    accessAt (kept ++ fallback) place = accessAt kept place := by
  have above : ∀ root ∈ fallback, root.1 <+: place →
      ∃ rule ∈ kept, rule.1 <+: place ∧ root.1.length < rule.1.length := by
    intro root member covers
    by_contra none_deeper
    apply unshadowed
    refine ⟨root, member, covers, ?_⟩
    intro rule listed outer
    apply prefix_of_prefix_length_le outer covers
    by_contra deeper
    exact none_deeper ⟨rule, listed, outer, Nat.lt_of_not_le deeper⟩
  rw [accessAt]
  congr 1
  ext access
  rw [resolve_eq_some, resolve_eq_some]
  apply exists_congr
  intro decider
  constructor
  · intro decides
    cases mem_append.mp decides.rule with
    | inl listed => exact decides.of_append listed
    | inr denied =>
      obtain ⟨rule, listed, covers, deeper⟩ := above _ denied decides.covers
      have bound := (decides.covers_place (mem_append_left _ listed) covers).length_le
      exact absurd deeper (Nat.not_lt_of_le bound)
  · intro decides
    refine ⟨mem_append_left _ decides.rule, decides.covers, ?_⟩
    intro other member covers
    cases mem_append.mp member with
    | inl listed => exact decides.deepest other listed covers
    | inr denied =>
      obtain ⟨rule, listed, outer, deeper⟩ := above other denied covers
      exact .inl (Nat.lt_of_lt_of_le deeper (decides.covers_place listed outer).length_le)

variable (denied : ∀ root ∈ fallback, root.2 = .deny)

include denied

theorem accessAt_of_shadowed (shadowed : Shadowed kept fallback place) :
    accessAt (kept ++ fallback) place = .deny := by
  obtain ⟨root, member, covers, above⟩ := shadowed
  obtain ⟨decider, access, decides⟩ := exists_decides (mem_append_right kept member) covers
  rw [accessAt_of_decides decides]
  cases mem_append.mp decides.rule with
  | inr fallen => exact denied _ fallen
  | inl listed =>
    -- A kept decider stands at the root itself, where the denial is stronger.
    have below : decider <+: root.1 := above _ listed decides.covers
    have level := decides.level (mem_append_right _ member) covers below
    rw [denied root member] at level
    exact le_antisymm (FileSystemAccessMode.le_deny _) level.2

theorem capability_le (narrows : ∀ rule ∈ outside,
      capability (accessAt kept rule.1) ≤ capability (accessAt (kept ++ outside) rule.1) ∨
        Shadowed kept fallback rule.1) (place : List String) :
    capability (accessAt (kept ++ fallback) place) ≤
      capability (accessAt (kept ++ outside) place) := by
  by_cases shadowed : Shadowed kept fallback place
  · rw [accessAt_of_shadowed denied shadowed]
    exact Nat.zero_le _
  · rw [accessAt_of_not_shadowed shadowed]
    by_cases refused : accessAt kept place = .deny
    · rw [refused]
      exact Nat.zero_le _
    · obtain ⟨decider, decides⟩ := exists_decider refused
      obtain ⟨other, access, original⟩ :=
        exists_decides (mem_append_left outside decides.rule) decides.covers
      have below : decider <+: other :=
        original.covers_place (mem_append_left _ decides.rule) decides.covers
      rw [accessAt_of_decides original]
      cases mem_append.mp original.rule with
      | inl listed =>
        rw [← accessAt_of_decides (original.of_append listed)]
      | inr replaced =>
        have keptThere := accessAt_of_decides (decides.between below original.covers)
        have originalThere := accessAt_of_decides original.self
        cases narrows _ replaced with
        | inl less =>
          rw [keptThere, originalThere] at less
          exact less
        | inr shadow =>
          obtain ⟨root, member, outer, above⟩ := shadow
          refine absurd ⟨root, member, outer.trans original.covers, ?_⟩ shadowed
          intro rule listed covers
          exact above rule listed ((decides.covers_place listed covers).trans below)

omit denied in
theorem narrows_of_le
    (less : capability (accessAt (kept ++ fallback) place) ≤
      capability (accessAt (kept ++ outside) place)) :
    capability (accessAt kept place) ≤ capability (accessAt (kept ++ outside) place) ∨
      Shadowed kept fallback place := by
  by_cases shadowed : Shadowed kept fallback place
  · exact .inr shadowed
  · rw [accessAt_of_not_shadowed shadowed] at less
    exact .inl less

theorem accessAt_fallback {root : List String × FileSystemAccessMode} (member : root ∈ fallback) :
    accessAt (kept ++ fallback) root.1 = .deny :=
  accessAt_of_shadowed denied ⟨root, member, prefix_refl _, fun _ _ covers => covers⟩

theorem accessAt_append_eq (refused : ∀ root ∈ fallback, accessAt kept root.1 = .deny)
    (place : List String) : accessAt (kept ++ fallback) place = accessAt kept place := by
  by_cases shadowed : Shadowed kept fallback place
  · rw [accessAt_of_shadowed denied shadowed]
    obtain ⟨root, member, covers, above⟩ := shadowed
    by_contra granted
    obtain ⟨decider, decides⟩ := exists_decider (Ne.symm granted)
    have outer : decider <+: root.1 := above _ decides.rule decides.covers
    have same := accessAt_of_decides (decides.between outer covers)
    exact granted ((refused root member).symm.trans same)
  · exact accessAt_of_not_shadowed shadowed

end

section

variable (paths : NativePaths) (workspaceRoots : List PathUri)

variable (entry : FileSystemSandboxEntry)

def deniesHomeAt : Bool :=
  (workspaceSubpath entry.path).any fun subpath => deniesHome workspaceRoots entry subpath.1

def materializedEntries : List FileSystemSandboxEntry :=
  match workspaceSubpath entry.path with
  | none => [entry]
  | some (subpath, isGlob) =>
    workspaceRoots.filterMap (materializeAtRoot paths entry subpath isGlob)

def keptEntries : List FileSystemSandboxEntry :=
  match workspaceSubpath entry.path with
  | none => [entry]
  | some (subpath, isGlob) =>
    workspaceRoots.filterMap fun root =>
      (scopedPath paths subpath isGlob root).map (scopedEntry paths entry isGlob)

def deniedRoots : List PathUri :=
  match workspaceSubpath entry.path with
  | none => []
  | some (subpath, isGlob) =>
    if entry.access.canWrite then []
    else workspaceRoots.filter fun root => scopedPath paths subpath isGlob root = none

def outsidePaths : List PathUri :=
  match workspaceSubpath entry.path with
  | some (some subpath, false) =>
    (workspaceRoots.filter fun root => scopedPath paths (some subpath) false root = none).filterMap
      fun root => join paths.windowsJoin root subpath
  | _ => []

variable (policy : FileSystemSandboxPolicy)

def keptPolicy : FileSystemSandboxPolicy :=
  { policy with entries := policy.entries.flatMap (keptEntries paths workspaceRoots) }

def fallbackRoots : List PathUri := policy.entries.flatMap (deniedRoots paths workspaceRoots)

def outsideEntries : List (PathUri × FileSystemAccessMode) :=
  policy.entries.flatMap fun entry =>
    (outsidePaths paths workspaceRoots entry).map fun path => (path, entry.access)

def deniesHomePath : Bool := policy.entries.any (deniesHomeAt workspaceRoots)

end

section

variable {paths : NativePaths} {workspaceRoots : List PathUri} {policy : FileSystemSandboxPolicy}

theorem materializeEntry_eq :
    materializeEntry paths workspaceRoots = fun entry =>
      if deniesHomeAt workspaceRoots entry then none
      else some (materializedEntries paths workspaceRoots entry) := by
  funext entry
  rw [materializeEntry, deniesHomeAt, materializedEntries]
  cases workspaceSubpath entry.path with
  | none | some => rfl

theorem mapM_ite {α β : Type} (fails : α → Bool) (value : α → β) (items : List α) :
    items.mapM (fun item => if fails item then none else some (value item)) =
      if items.any fails then none else some (items.map value) := by
  induction items with
  | nil => rfl
  | cons head tail ih =>
    rw [mapM_cons, ih, any_cons]
    cases fails head with
    | true => rfl
    | false =>
      cases tail.any fails with
      | true | false => rfl

theorem materialize_eq :
    materializeProjectRootsWithPathUris paths policy workspaceRoots =
      if deniesHomePath workspaceRoots policy then restricted []
      else { policy with
        entries := policy.entries.flatMap (materializedEntries paths workspaceRoots) } := by
  rw [materializeProjectRootsWithPathUris, tryMaterializeProjectRootsWithPathUris,
    materializeEntry_eq, mapM_ite, deniesHomePath]
  cases policy.entries.any (deniesHomeAt workspaceRoots) with
  | true | false => rfl

variable {entry result : FileSystemSandboxEntry} {resolved : PathUri × FileSystemAccessMode}

theorem mem_materialized :
    result ∈ materializedEntries paths workspaceRoots entry ↔
      result ∈ keptEntries paths workspaceRoots entry ∨
        ∃ root ∈ deniedRoots paths workspaceRoots entry, result = fallbackEntry entry root := by
  rw [materializedEntries, keptEntries, deniedRoots]
  cases workspaceSubpath entry.path with
  | none => simp
  | some subpath =>
    simp only [mem_filterMap]
    constructor
    · rintro ⟨root, listed, found⟩
      rw [materializeAtRoot] at found
      cases inside : scopedPath paths subpath.1 subpath.2 root with
      | some path =>
        rw [inside] at found
        exact .inl ⟨root, listed, by rw [inside]; exact found⟩
      | none =>
        rw [inside] at found
        cases writes : entry.access.canWrite with
        | true => simp [writes] at found
        | false =>
          simp only [writes, Bool.not_false, if_true, some.injEq] at found
          refine .inr ⟨root, ?_, found.symm⟩
          simp [listed, inside]
    · rintro (⟨root, listed, found⟩ | ⟨root, listed, same⟩)
      · obtain ⟨path, inside, equal⟩ := map_eq_some_iff.mp found
        exact ⟨root, listed, by rw [materializeAtRoot, inside, ← equal]⟩
      · split at listed
        · cases listed
        · rename_i reads
          obtain ⟨member, inside⟩ := mem_filter.mp listed
          refine ⟨root, member, ?_⟩
          rw [materializeAtRoot, of_decide_eq_true inside, same]
          simp [reads]

theorem materialized_concrete
    (member : result ∈ (materializeProjectRootsWithPathUris paths policy workspaceRoots).entries)
    (subpath : Option String) : result.path ≠ .special (.projectRoots subpath) := by
  rw [materialize_eq] at member
  split at member
  · cases member
  · obtain ⟨entry, _, made⟩ := mem_flatMap.mp member
    rcases mem_materialized.mp made with kept | ⟨root, _, rfl⟩
    · rw [keptEntries] at kept
      split at kept
      · rename_i other
        rw [mem_singleton.mp kept]
        intro named
        rw [named] at other
        cases other
      · obtain ⟨root, _, mapped⟩ := mem_filterMap.mp kept
        obtain ⟨path, _, rfl⟩ := map_eq_some_iff.mp mapped
        rw [scopedEntry]
        split <;> nofun
    · nofun

theorem workspaceSubpath_cases {path : FileSystemPath} {subpath : Option String} {isGlob : Bool}
    (found : workspaceSubpath path = some (subpath, isGlob)) :
    path = .special (.projectRoots subpath) ∧ isGlob = false ∨
      ∃ pattern, path = .globPattern pattern ∧ isGlob = true := by
  unfold workspaceSubpath at found
  split at found
  · cases found
    exact .inl ⟨rfl, rfl⟩
  · split at found
    · cases found
      exact .inr ⟨_, rfl, rfl⟩
    · cases found
  · cases found

theorem access_of_kept (member : result ∈ keptEntries paths workspaceRoots entry) :
    result.access = entry.access := by
  rw [keptEntries] at member
  split at member
  · rw [mem_singleton.mp member]
  · obtain ⟨root, _, found⟩ := mem_filterMap.mp member
    obtain ⟨path, _, equal⟩ := map_eq_some_iff.mp found
    rw [← equal]
    rfl

theorem join_of_scopedPath {root path : PathUri} {subpath : String}
    (inside : scopedPath paths (some subpath) false root = some path) :
    join paths.windowsJoin root subpath = some path := by
  simp only [scopedPath, Bool.false_eq_true, false_and, if_false, resolveScopedWorkspacePath]
    at inside
  split at inside
  · cases inside
  · split at inside
    · cases inside
    · split at inside
      · cases inside
      · rename_i joined
        split at inside
        · rw [joined, ← inside]
        · cases inside

variable {context : FileSystemSandboxPolicyContext}

theorem mem_projectRoots (roots : context.workspaceRoots = workspaceRoots) {subpath : Option String}
    (named : entry.path = .special (.projectRoots subpath)) {uri : PathUri} :
    uri ∈ resolvedPaths paths.windowsJoin context entry.path ↔
      (∃ root ∈ workspaceRoots, scopedPath paths subpath false root = some uri) ∨
        uri ∈ outsidePaths paths workspaceRoots entry := by
  rw [named, resolvedPaths, roots, outsidePaths, named, workspaceSubpath]
  cases subpath with
  | none => simp [scopedPath]
  | some subpath =>
    simp only [mem_filterMap, mem_filter, decide_eq_true_eq]
    constructor
    · rintro ⟨root, listed, joined⟩
      cases inside : scopedPath paths (some subpath) false root with
      | none => exact .inr ⟨root, ⟨listed, inside⟩, joined⟩
      | some path =>
        have same : some path = some uri := (join_of_scopedPath inside).symm.trans joined
        exact .inl ⟨root, listed, inside.trans same⟩
    · rintro (⟨root, listed, inside⟩ | ⟨root, ⟨listed, _⟩, joined⟩)
      · exact ⟨root, listed, join_of_scopedPath inside⟩
      · exact ⟨root, listed, joined⟩

theorem mem_resolvedPaths (roots : context.workspaceRoots = workspaceRoots) {uri : PathUri} :
    uri ∈ resolvedPaths paths.windowsJoin context entry.path ↔
      (∃ result ∈ keptEntries paths workspaceRoots entry,
        uri ∈ resolvedPaths paths.windowsJoin context result.path) ∨
        uri ∈ outsidePaths paths workspaceRoots entry := by
  cases found : workspaceSubpath entry.path with
  | none => simp [keptEntries, outsidePaths, found]
  | some subpath =>
    obtain ⟨subpath, isGlob⟩ := subpath
    cases workspaceSubpath_cases found with
    | inl projectRoots =>
      obtain ⟨named, rfl⟩ := projectRoots
      rw [mem_projectRoots roots named]
      apply or_congr_left
      simp only [keptEntries, found, mem_filterMap]
      constructor
      · rintro ⟨root, listed, inside⟩
        refine ⟨scopedEntry paths entry false uri, ⟨root, listed, by rw [inside]; rfl⟩, ?_⟩
        exact mem_singleton.mpr rfl
      · rintro ⟨result, ⟨root, listed, mapped⟩, named⟩
        obtain ⟨path, inside, rfl⟩ := map_eq_some_iff.mp mapped
        rw [mem_singleton.mp named]
        exact ⟨root, listed, inside⟩
    | inr glob =>
      obtain ⟨pattern, named, rfl⟩ := glob
      constructor
      · intro member
        rw [named] at member
        cases member
      · rintro (⟨result, member, inside⟩ | member)
        · simp only [keptEntries, found, mem_filterMap] at member
          obtain ⟨root, _, mapped⟩ := member
          obtain ⟨path, _, rfl⟩ := map_eq_some_iff.mp mapped
          cases inside
        · simp [outsidePaths, found] at member

theorem mem_resolvedEntries :
    resolved ∈ resolvedEntries paths.windowsJoin policy context ↔
      (∃ entry ∈ policy.entries, entry.access = resolved.2 ∧
        resolved.1 ∈ resolvedPaths paths.windowsJoin context entry.path) ∧
      inferPathConvention resolved.1 = inferPathConvention context.cwd := by
  rw [resolvedEntries, mem_flatMap]
  constructor
  · rintro ⟨entry, listed, member⟩
    obtain ⟨uri, named, rfl⟩ := mem_map.mp member
    obtain ⟨inside, same⟩ := mem_filter.mp named
    exact ⟨⟨entry, listed, rfl, inside⟩, of_decide_eq_true same⟩
  · rintro ⟨⟨entry, listed, access, inside⟩, same⟩
    refine ⟨entry, listed, mem_map.mpr ⟨resolved.1, ?_, by rw [access]⟩⟩
    exact mem_filter.mpr ⟨inside, decide_eq_true same⟩

theorem mem_resolved_original (roots : context.workspaceRoots = workspaceRoots) :
    resolved ∈ resolvedEntries paths.windowsJoin policy context ↔
      resolved ∈ resolvedEntries paths.windowsJoin (keptPolicy paths workspaceRoots policy) context ∨
        resolved ∈ outsideEntries paths workspaceRoots policy ∧
          inferPathConvention resolved.1 = inferPathConvention context.cwd := by
  rw [mem_resolvedEntries, mem_resolvedEntries, ← or_and_right]
  apply and_congr_left'
  constructor
  · rintro ⟨entry, listed, access, named⟩
    cases (mem_resolvedPaths roots).mp named with
    | inl kept =>
      obtain ⟨result, member, inside⟩ := kept
      exact .inl ⟨result, mem_flatMap.mpr ⟨entry, listed, member⟩,
        (access_of_kept member).trans access, inside⟩
    | inr outside =>
      refine .inr (mem_flatMap.mpr ⟨entry, listed, mem_map.mpr ⟨_, outside, ?_⟩⟩)
      rw [access]
  · rintro (⟨result, member, access, inside⟩ | outside)
    · obtain ⟨entry, listed, kept⟩ := mem_flatMap.mp member
      exact ⟨entry, listed, (access_of_kept kept).symm.trans access,
        (mem_resolvedPaths roots).mpr (.inl ⟨result, kept, inside⟩)⟩
    · obtain ⟨entry, listed, member⟩ := mem_flatMap.mp outside
      obtain ⟨uri, named, rfl⟩ := mem_map.mp member
      exact ⟨entry, listed, rfl, (mem_resolvedPaths roots).mpr (.inr named)⟩

theorem mem_resolved_materialized (known : deniesHomePath workspaceRoots policy = false) :
    resolved ∈ resolvedEntries paths.windowsJoin
        (materializeProjectRootsWithPathUris paths policy workspaceRoots) context ↔
      resolved ∈ resolvedEntries paths.windowsJoin (keptPolicy paths workspaceRoots policy) context ∨
        resolved ∈ (fallbackRoots paths workspaceRoots policy).map (fun root => (root, .deny)) ∧
          inferPathConvention resolved.1 = inferPathConvention context.cwd := by
  rw [materialize_eq, known, mem_resolvedEntries, mem_resolvedEntries, ← or_and_right]
  apply and_congr_left'
  constructor
  · rintro ⟨result, member, access, inside⟩
    obtain ⟨entry, listed, made⟩ := mem_flatMap.mp member
    cases mem_materialized.mp made with
    | inl kept => exact .inl ⟨result, mem_flatMap.mpr ⟨entry, listed, kept⟩, access, inside⟩
    | inr denied =>
      obtain ⟨root, found, rfl⟩ := denied
      refine .inr (mem_map.mpr ⟨root, mem_flatMap.mpr ⟨entry, listed, found⟩, ?_⟩)
      rw [← mem_singleton.mp inside]
      exact Prod.ext rfl access
  · rintro (⟨result, member, access, inside⟩ | denied)
    · obtain ⟨entry, listed, kept⟩ := mem_flatMap.mp member
      exact ⟨result, mem_flatMap.mpr ⟨entry, listed, mem_materialized.mpr (.inl kept)⟩,
        access, inside⟩
    · obtain ⟨root, member, rfl⟩ := mem_map.mp denied
      obtain ⟨entry, listed, found⟩ := mem_flatMap.mp member
      exact ⟨fallbackEntry entry root, mem_flatMap.mpr
        ⟨entry, listed, mem_materialized.mpr (.inr ⟨root, found, rfl⟩)⟩, rfl,
        mem_singleton.mpr rfl⟩

end

end OpenInterpreter.MaterializedRoots
