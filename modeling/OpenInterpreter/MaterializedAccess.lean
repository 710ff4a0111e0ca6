import OpenInterpreter.MaterializedRoots

/-! A materialized policy grants no more than the symbolic one exactly where no denial that leaves
its workspace root is lost. -/

namespace OpenInterpreter.MaterializedAccess

open List

open ExecutorPath SandboxAccess PrefixRules PolicyPlaces LocalPaths LocalPolicy ProjectRoots
open MaterializedRoots

variable {path : PathUri} {windowsJoin : PathUri → String → Option PathUri}
  {context : FileSystemSandboxPolicyContext}

section

variable {base other : FileSystemSandboxPolicy}
  {added : List (PathUri × FileSystemAccessMode)}

def Adds (windowsJoin : PathUri → String → Option PathUri)
    (context : FileSystemSandboxPolicyContext) (base other : FileSystemSandboxPolicy)
    (added : List (PathUri × FileSystemAccessMode)) : Prop :=
  ∀ resolved, resolved ∈ resolvedEntries windowsJoin other context ↔
    resolved ∈ resolvedEntries windowsJoin base context ∨ resolved ∈ added

variable (adds : Adds windowsJoin context base other added)
include adds

theorem located_of_granted (kind : other.kind = .restricted)
    (granted : resolveAccess windowsJoin other path context ≠ .deny) :
    ∃ cwdPlace place, placeOf context.cwd = some cwdPlace ∧
      Located (inferPathConvention context.cwd) path place ∧
      Clear (resolvedEntries windowsJoin base context) := by
  obtain ⟨cwdPlace, place, cwd_at, path_at, clear⟩ := clear_of_granted kind granted
  exact ⟨cwdPlace, place, cwd_at, path_at, fun entry member =>
    clear entry ((adds entry).mpr (.inl member))⟩

theorem resolveAccess_added (kind : other.kind = .restricted) (clearAdded : Clear added)
    {place cwdPlace : List String} (cwd_at : placeOf context.cwd = some cwdPlace)
    (path_at : Located (inferPathConvention context.cwd) path place)
    (clear : Clear (resolvedEntries windowsJoin base context)) :
    resolveAccess windowsJoin other path context =
      accessAt (rulesOf windowsJoin base context ++ placeRules added) place := by
  have allClear : Clear (resolvedEntries windowsJoin other context) := by
    intro entry member
    cases (adds entry).mp member with
    | inl old => exact clear entry old
    | inr new => exact clearAdded entry new
  rw [resolveAccess_eq kind cwd_at path_at allClear]
  congr 1
  apply resolve_congr
  rintro ⟨rulePlace, access⟩
  rw [mem_append, rulesOf, rulesOf, mem_placeRules, mem_placeRules, mem_placeRules, ← exists_or]
  apply exists_congr
  intro uri
  rw [← or_and_right]
  exact and_congr_left' (adds (uri, access))

end

section

variable {root : HostPath} {subpath : String} {uri : PathUri} {path : HostPath}

section

variable (posix : inferPathConvention (.url none path.components) = some .posix)
include posix

theorem url_of_posix : PathUri.url none path.components = fromAbsPath path := by
  rw [fromAbsPath, if_pos posix]

theorem undriven_of_posix : path.driven = false := by
  cases driven : path.driven with
  | false => rfl
  | true =>
    have written := url_of_posix posix
    rw [fromAbsPath_of_driven path driven] at written
    cases written

end

theorem located_of_undriven (undriven : path.driven = false) :
    Located (some .posix) (fromAbsPath path) ("" :: path.components) where
  same := inferPathConvention_fromAbsPath path
  found := by
    rw [placeOf_fromAbsPath, hostPlace, undriven]
    rfl

section

variable (joined : join windowsJoin (fromAbsPath root) subpath = some uri)
include joined

theorem join_cases :
    '\x00' ∉ subpath.toList ∧ (uri = fromAbsPath root ∨
        (∃ rest, subpath.toList = '/' :: rest ∧ uri = parsePosixPath rest) ∨
        root.driven = false ∧ uri = .url none (root.normalize subpath.toList).components) := by
  unfold join at joined
  split at joined
  · cases joined
  · rename_i unterminated
    have clean : '\x00' ∉ subpath.toList := by simpa using unterminated
    refine ⟨clean, ?_⟩
    split at joined
    · exact .inl (Option.some.inj joined).symm
    · rw [inferPathConvention_fromAbsPath] at joined
      simp only at joined
      split at joined
      · rename_i rest shape
        exact .inr (.inl ⟨rest, shape, (Option.some.inj joined).symm⟩)
      · cases joined
      · rename_i host segments shape _
        cases driven : root.driven with
        | true =>
          rw [fromAbsPath_of_driven root driven] at shape
          cases shape
        | false =>
          rw [fromAbsPath_of_not_driven root driven] at shape
          cases shape
          have components := components_foldl_push root (clean_splitSegments clean)
          refine .inr (.inr ⟨rfl, ?_⟩)
          rw [HostPath.normalize, components]
          exact (Option.some.inj joined).symm

theorem isOpaque_of_joined (posix : inferPathConvention uri = some .posix)
    (placeless : placeOf uri = none) : isOpaque uri = true := by
  obtain ⟨clean, shape⟩ := join_cases joined
  rcases shape with rfl | ⟨rest, text, rfl⟩ | ⟨_, rfl⟩
  · exact isOpaque_of_placeless root placeless
  · rw [parsePosixPath] at placeless ⊢
    split
    · rename_i convention
      rw [if_pos convention] at placeless
      have after : '\x00' ∉ rest := fun null => clean (by rw [text]; exact mem_cons_of_mem _ null)
      have components := components_foldl_push HostPath.root (clean_splitSegments after)
      have named : (splitSegments rest).foldl pushSegment [] =
          (HostPath.root.normalize rest).components := components.symm
      rw [named] at placeless convention ⊢
      rw [url_of_posix convention] at placeless ⊢
      exact isOpaque_of_placeless _ placeless
    · rfl
  · rw [url_of_posix posix] at placeless ⊢
    exact isOpaque_of_placeless _ placeless

end

/-- A subpath with no leading slash, no `.` or `..` segment, and not below the home. -/
def PlainRelative (subpath : String) : Prop :=
  subpath.toList.head? ≠ some '/' ∧
    (∀ segment ∈ splitSegments subpath.toList, segment ≠ "." ∧ segment ≠ "..") ∧
    homeRelativeSuffix .posix subpath = none

instance (subpath : String) : Decidable (PlainRelative subpath) :=
  inferInstanceAs (Decidable (_ ∧ _ ∧ _))

theorem isPrefix_foldl_pushSegment {segments : List String}
    (descends : ∀ segment ∈ segments, segment ≠ "..") (base : List String) :
    base <+: segments.foldl pushSegment base := by
  induction segments generalizing base with
  | nil => exact prefix_refl _
  | cons head tail ih =>
    have rest := ih fun segment member => descends segment (mem_cons_of_mem _ member)
    apply IsPrefix.trans _ (rest (pushSegment base head))
    rw [pushSegment, if_neg (descends head mem_cons_self)]
    split
    · exact prefix_refl _
    · exact prefix_append _ _

theorem startsWith_joined (plain : PlainRelative subpath)
    (joined : join windowsJoin (fromAbsPath root) subpath = some uri)
    (posix : inferPathConvention uri = some .posix) : startsWith uri (fromAbsPath root) = true := by
  obtain ⟨unrooted, segments, _⟩ := plain
  obtain ⟨clean, shape⟩ := join_cases joined
  rcases shape with rfl | ⟨rest, text, _⟩ | ⟨undriven, rfl⟩
  · simp [startsWith, sameUri]
  · rw [text] at unrooted
    exact absurd rfl unrooted
  · have below : root.components <+: (root.normalize subpath.toList).components := by
      rw [HostPath.normalize, components_foldl_push root (clean_splitSegments clean)]
      exact isPrefix_foldl_pushSegment (fun segment member => (segments segment member).2) _
    have root_at : Located (some .posix) (fromAbsPath root) ("" :: root.components) :=
      located_of_undriven undriven
    have target_at := located_of_undriven (undriven_of_posix posix)
    rw [url_of_posix posix]
    exact (target_at.startsWith_iff root_at).mpr (cons_prefix_cons.mpr ⟨rfl, below⟩)

end

section

variable (paths : NativePaths) (roots : List HostPath) (policy : FileSystemSandboxPolicy)

def outsideIn (context : FileSystemSandboxPolicyContext) : List (PathUri × FileSystemAccessMode) :=
  (outsideEntries paths (roots.map fromAbsPath) policy).filter fun entry =>
    inferPathConvention entry.1 = inferPathConvention context.cwd

def fallbackDenials : List (PathUri × FileSystemAccessMode) :=
  (fallbackRoots paths (roots.map fromAbsPath) policy).map fun root => (root, .deny)

def PlainSubpaths : Prop :=
  ∀ entry ∈ policy.entries, ∀ subpath isGlob,
    workspaceSubpath entry.path = some (some subpath, isGlob) → PlainRelative subpath

abbrev kept : FileSystemSandboxPolicy := keptPolicy paths (roots.map fromAbsPath) policy

abbrev materialized : FileSystemSandboxPolicy :=
  materializeProjectRootsWithPathUris paths policy (roots.map fromAbsPath)

variable {paths roots policy} {root : PathUri}

theorem host_of_fallback (member : root ∈ fallbackRoots paths (roots.map fromAbsPath) policy) :
    ∃ path, root = fromAbsPath path := by
  obtain ⟨entry, _, found⟩ := mem_flatMap.mp member
  rw [deniedRoots] at found
  split at found
  · cases found
  · split at found
    · cases found
    · obtain ⟨path, _, same⟩ := mem_map.mp (mem_filter.mp found).1
      exact ⟨path, same.symm⟩

theorem exists_of_outside {resolved : PathUri × FileSystemAccessMode}
    (member : resolved ∈ outsideEntries paths (roots.map fromAbsPath) policy) :
    ∃ entry ∈ policy.entries, ∃ subpath, ∃ root : HostPath,
      workspaceSubpath entry.path = some (some subpath, false) ∧
      scopedPath paths (some subpath) false (fromAbsPath root) = none ∧
      join paths.windowsJoin (fromAbsPath root) subpath = some resolved.1 := by
  obtain ⟨entry, listed, found⟩ := mem_flatMap.mp member
  obtain ⟨uri, named, rfl⟩ := mem_map.mp found
  rw [outsidePaths] at named
  split at named
  · rename_i subpath shape
    obtain ⟨root, kept, joined⟩ := mem_filterMap.mp named
    obtain ⟨inside, outside⟩ := mem_filter.mp kept
    obtain ⟨path, _, rfl⟩ := mem_map.mp inside
    exact ⟨entry, listed, subpath, path, shape, of_decide_eq_true outside, joined⟩
  · cases named

variable (posix : inferPathConvention context.cwd = some .posix)

include posix

theorem clear_outside : Clear (outsideIn paths roots policy context) := by
  intro resolved member placeless
  obtain ⟨outside, same⟩ := mem_filter.mp member
  obtain ⟨_, _, subpath, root, _, _, joined⟩ := exists_of_outside outside
  exact isOpaque_of_joined joined ((of_decide_eq_true same).trans posix) placeless

omit posix in
theorem clear_fallback : Clear (fallbackDenials paths roots policy) := by
  intro resolved member placeless
  obtain ⟨root, found, rfl⟩ := mem_map.mp member
  obtain ⟨path, rfl⟩ := host_of_fallback found
  exact isOpaque_of_placeless path placeless

omit posix in
theorem original_adds (workspace : context.workspaceRoots = roots.map fromAbsPath) :
    Adds paths.windowsJoin context (kept paths roots policy) policy
      (outsideIn paths roots policy context) := by
  intro resolved
  rw [mem_resolved_original workspace, outsideIn, mem_filter, decide_eq_true_iff]

theorem materialized_adds (known : deniesHomePath (roots.map fromAbsPath) policy = false) :
    Adds paths.windowsJoin context (kept paths roots policy)
      (materialized paths roots policy)
      (fallbackDenials paths roots policy) := by
  intro resolved
  rw [mem_resolved_materialized known]
  apply or_congr_right
  apply and_iff_left_of_imp
  intro member
  obtain ⟨root, found, rfl⟩ := mem_map.mp member
  obtain ⟨path, rfl⟩ := host_of_fallback found
  exact (inferPathConvention_fromAbsPath path).trans posix.symm

omit posix in
theorem deny_of_fallback :
    ∀ rule ∈ placeRules (fallbackDenials paths roots policy), rule.2 = .deny := by
  rintro ⟨place, access⟩ member
  obtain ⟨uri, found, _⟩ := mem_placeRules.mp member
  obtain ⟨root, _, same⟩ := mem_map.mp found
  cases same
  rfl

omit posix in
theorem materialized_kind (kind : policy.kind = .restricted) :
    (materialized paths roots policy).kind = .restricted := by
  rw [materialized, materialize_eq]
  split
  · rfl
  · exact kind

theorem outside_of_plain (plain : PlainSubpaths policy) :
    outsideIn paths roots policy context = [] := by
  apply eq_nil_iff_forall_not_mem.mpr
  intro resolved member
  obtain ⟨outside, same⟩ := mem_filter.mp member
  obtain ⟨entry, listed, subpath, root, shape, unscoped, joined⟩ := exists_of_outside outside
  have relative := plain entry listed subpath false shape
  have convention := (of_decide_eq_true same).trans posix
  have starts := startsWith_joined relative joined convention
  obtain ⟨unrooted, segments, _⟩ := relative
  simp [scopedPath, resolveScopedWorkspacePath, inferPathConvention_fromAbsPath, unrooted,
    joined, starts] at unscoped
  obtain ⟨segment, member, dots⟩ := unscoped
  have plainSegment := segments segment member
  exact plainSegment.2 (dots plainSegment.1)

omit posix in
theorem known_of_plain (plain : PlainSubpaths policy) :
    deniesHomePath (roots.map fromAbsPath) policy = false := by
  apply any_eq_false.mpr
  intro entry listed denies
  rw [deniesHomeAt] at denies
  cases shape : workspaceSubpath entry.path with
  | none => simp [shape] at denies
  | some subpath =>
    obtain ⟨subpath, isGlob⟩ := subpath
    cases subpath with
    | none => simp [shape, deniesHome] at denies
    | some text =>
      have none := (plain entry listed text isGlob shape).2.2
      simp [shape, deniesHome, inferPathConvention_fromAbsPath, none] at denies

/-- A fallback denial lies over the path, and no kept entry over the path lies below it. -/
def DeniedByRoot (paths : NativePaths) (roots : List HostPath) (policy : FileSystemSandboxPolicy)
    (context : FileSystemSandboxPolicyContext) (target : PathUri) : Prop :=
  ∃ root ∈ fallbackRoots paths (roots.map fromAbsPath) policy, startsWith target root = true ∧
    ∀ entry ∈ resolvedEntries paths.windowsJoin (keptPolicy paths (roots.map fromAbsPath) policy)
      context, startsWith target entry.1 = true → startsWith root entry.1 = true

theorem convention_of_fallback
    (member : root ∈ fallbackRoots paths (roots.map fromAbsPath) policy) :
    inferPathConvention root = inferPathConvention context.cwd := by
  obtain ⟨path, rfl⟩ := host_of_fallback member
  exact (inferPathConvention_fromAbsPath path).trans posix.symm

theorem deniedByRoot_iff {target : PathUri} {place : List String}
    (target_at : Located (inferPathConvention context.cwd) target place) :
    DeniedByRoot paths roots policy context target ↔ Shadowed
        (rulesOf paths.windowsJoin (kept paths roots policy) context)
        (placeRules (fallbackDenials paths roots policy)) place := by
  constructor
  · rintro ⟨root, member, starts, above⟩
    obtain ⟨rootPlace, root_at⟩ := target_at.exists_of_startsWith starts
    refine ⟨(rootPlace, .deny), ?_, (target_at.startsWith_iff root_at).mp starts, ?_⟩
    · exact mem_placeRules.mpr ⟨root, mem_map.mpr ⟨root, member, rfl⟩, root_at.found⟩
    · rintro ⟨rulePlace, access⟩ listed covers
      obtain ⟨uri, resolved, placed⟩ := mem_placeRules.mp listed
      have rule_at := located_of_resolved resolved placed
      exact (root_at.startsWith_iff rule_at).mp
        (above _ resolved ((target_at.startsWith_iff rule_at).mpr covers))
  · rintro ⟨⟨rootPlace, access⟩, listed, covers, above⟩
    obtain ⟨uri, found, placed⟩ := mem_placeRules.mp listed
    obtain ⟨_, member, same⟩ := mem_map.mp found
    cases same
    have root_at : Located (inferPathConvention context.cwd) uri rootPlace :=
      ⟨convention_of_fallback posix member, placed⟩
    refine ⟨uri, member, (target_at.startsWith_iff root_at).mpr covers, ?_⟩
    rintro ⟨other, access⟩ resolved starts
    obtain ⟨rulePlace, rule_at⟩ := target_at.exists_of_startsWith starts
    have rule := mem_placeRules.mpr ⟨other, resolved, rule_at.found⟩
    exact (root_at.startsWith_iff rule_at).mpr
      (above _ rule ((target_at.startsWith_iff rule_at).mp starts))

omit posix in
theorem resolveAccess_empty (path : PathUri) :
    resolveAccess paths.windowsJoin (restricted []) path context = .deny := by
  by_contra granted
  obtain ⟨cwdPlace, place, cwd_at, path_at, clear⟩ := clear_of_granted rfl granted
  exact granted (resolveAccess_eq rfl cwd_at path_at clear)

variable (workspace : context.workspaceRoots = roots.map fromAbsPath)
  (kind : policy.kind = .restricted)

section

variable {place cwdPlace : List String}
  (cwd_at : placeOf context.cwd = some cwdPlace)
  (path_at : Located (inferPathConvention context.cwd) path place)
  (clear : Clear (resolvedEntries paths.windowsJoin (kept paths roots policy) context))

include kind cwd_at path_at clear

omit posix in
theorem kept_access :
    resolveAccess paths.windowsJoin (kept paths roots policy) path context =
      accessAt (rulesOf paths.windowsJoin (kept paths roots policy) context)
        place := by
  have keptKind : (kept paths roots policy).kind = .restricted := kind
  exact resolveAccess_eq keptKind cwd_at path_at clear

include workspace in
theorem original_access :
    resolveAccess paths.windowsJoin policy path context =
      accessAt (rulesOf paths.windowsJoin (kept paths roots policy) context ++
        placeRules (outsideIn paths roots policy context)) place :=
  resolveAccess_added (original_adds workspace) kind (clear_outside posix) cwd_at path_at clear

theorem materialized_access (known : deniesHomePath (roots.map fromAbsPath) policy = false) :
    resolveAccess paths.windowsJoin
        (materialized paths roots policy) path context =
      accessAt (rulesOf paths.windowsJoin (kept paths roots policy) context ++
        placeRules (fallbackDenials paths roots policy)) place :=
  resolveAccess_added (materialized_adds posix known) (materialized_kind kind) clear_fallback
    cwd_at path_at clear

end

include workspace kind

section

variable (known : deniesHomePath (roots.map fromAbsPath) policy = false)
include known

theorem narrower_of_outside
    (narrows : ∀ target ∈ outsideEntries paths (roots.map fromAbsPath) policy,
      capability (resolveAccess paths.windowsJoin (kept paths roots policy) target.1 context) ≤
        capability (resolveAccess paths.windowsJoin policy target.1 context) ∨
      DeniedByRoot paths roots policy context target.1) (path : PathUri) :
    capability (resolveAccess paths.windowsJoin (materialized paths roots policy) path context) ≤
      capability (resolveAccess paths.windowsJoin policy path context) := by
  by_cases refused : resolveAccess paths.windowsJoin
      (materialized paths roots policy) path context = .deny
  · rw [refused]
    exact Nat.zero_le _
  · obtain ⟨cwdPlace, place, cwd_at, path_at, clear⟩ :=
      located_of_granted (materialized_adds posix known) (materialized_kind kind) refused
    rw [materialized_access posix kind cwd_at path_at clear known,
      original_access posix workspace kind cwd_at path_at clear]
    apply capability_le deny_of_fallback
    rintro ⟨targetPlace, access⟩ listed
    obtain ⟨target, found, placed⟩ := mem_placeRules.mp listed
    obtain ⟨outside, same⟩ := mem_filter.mp found
    have target_at : Located (inferPathConvention context.cwd) target targetPlace :=
      ⟨of_decide_eq_true same, placed⟩
    have there := narrows _ outside
    rw [deniedByRoot_iff posix target_at, kept_access kind cwd_at target_at clear,
      original_access posix workspace kind cwd_at target_at clear] at there
    exact there

theorem outside_of_narrower
    {target : PathUri}
    (narrower : capability (resolveAccess paths.windowsJoin
        (materialized paths roots policy) target context) ≤
      capability (resolveAccess paths.windowsJoin policy target context)) :
    capability (resolveAccess paths.windowsJoin (kept paths roots policy) target context) ≤
        capability (resolveAccess paths.windowsJoin policy target context) ∨
      DeniedByRoot paths roots policy context target := by
  by_cases refused : resolveAccess paths.windowsJoin
      (kept paths roots policy) target context = .deny
  · rw [refused]
    exact .inl (Nat.zero_le _)
  · have keptKind : (kept paths roots policy).kind = .restricted := kind
    obtain ⟨cwdPlace, place, cwd_at, target_at, clear⟩ := clear_of_granted keptKind refused
    rw [materialized_access posix kind cwd_at target_at clear known,
      original_access posix workspace kind cwd_at target_at clear] at narrower
    rw [deniedByRoot_iff posix target_at, kept_access kind cwd_at target_at clear,
      original_access posix workspace kind cwd_at target_at clear]
    exact narrows_of_le narrower

end

variable (plain : PlainSubpaths policy)
include plain

theorem plain_access {place cwdPlace : List String}
    (cwd_at : placeOf context.cwd = some cwdPlace)
    (path_at : Located (inferPathConvention context.cwd) path place)
    (clear : Clear (resolvedEntries paths.windowsJoin (kept paths roots policy) context)) :
    resolveAccess paths.windowsJoin policy path context =
      accessAt (rulesOf paths.windowsJoin (kept paths roots policy) context)
        place := by
  rw [original_access posix workspace kind cwd_at path_at clear, outside_of_plain posix plain]
  exact congrArg (accessAt · place) (append_nil _)

theorem refused_of_same
    (same : ∀ path, resolveAccess paths.windowsJoin (materialized paths roots policy) path context =
      resolveAccess paths.windowsJoin policy path context)
    (member : root ∈ fallbackRoots paths (roots.map fromAbsPath) policy) :
    resolveAccess paths.windowsJoin policy root context = .deny := by
  by_contra granted
  obtain ⟨cwdPlace, place, cwd_at, root_at, clear⟩ :=
    located_of_granted (original_adds workspace) kind granted
  have known : deniesHomePath (roots.map fromAbsPath) policy = false := known_of_plain plain
  have listed : (place, .deny) ∈ placeRules (fallbackDenials paths roots policy) :=
    mem_placeRules.mpr ⟨root, mem_map.mpr ⟨root, member, rfl⟩, root_at.found⟩
  have denied : accessAt (rulesOf paths.windowsJoin (kept paths roots policy) context ++
      placeRules (fallbackDenials paths roots policy)) place = .deny :=
    accessAt_fallback deny_of_fallback listed
  rw [← materialized_access posix kind cwd_at root_at clear known, same root] at denied
  exact granted denied

theorem same_of_refused
    (refused : ∀ root ∈ fallbackRoots paths (roots.map fromAbsPath) policy,
      resolveAccess paths.windowsJoin policy root context = .deny) (path : PathUri) :
    resolveAccess paths.windowsJoin
        (materialized paths roots policy) path context =
      resolveAccess paths.windowsJoin policy path context := by
  have known : deniesHomePath (roots.map fromAbsPath) policy = false := known_of_plain plain
  have located : ∀ cwdPlace place, placeOf context.cwd = some cwdPlace →
      Located (inferPathConvention context.cwd) path place →
      Clear (resolvedEntries paths.windowsJoin (kept paths roots policy) context) →
      resolveAccess paths.windowsJoin
        (materialized paths roots policy) path context =
      resolveAccess paths.windowsJoin policy path context := by
    intro cwdPlace place cwd_at path_at clear
    rw [materialized_access posix kind cwd_at path_at clear known,
      plain_access posix workspace kind plain cwd_at path_at clear]
    apply accessAt_append_eq deny_of_fallback
    rintro ⟨rootPlace, access⟩ listed
    obtain ⟨uri, found, placed⟩ := mem_placeRules.mp listed
    obtain ⟨_, member, equal⟩ := mem_map.mp found
    cases equal
    have root_at : Located (inferPathConvention context.cwd) uri rootPlace :=
      ⟨convention_of_fallback posix member, placed⟩
    rw [← plain_access posix workspace kind plain cwd_at root_at clear]
    exact refused uri member
  by_cases original : resolveAccess paths.windowsJoin policy path context = .deny
  · by_cases materialized : resolveAccess paths.windowsJoin
      (materialized paths roots policy) path context = .deny
    · rw [original, materialized]
    · obtain ⟨cwdPlace, place, cwd_at, path_at, clear⟩ :=
        located_of_granted (materialized_adds posix known) (materialized_kind kind) materialized
      exact located cwdPlace place cwd_at path_at clear
  · obtain ⟨cwdPlace, place, cwd_at, path_at, clear⟩ :=
      located_of_granted (original_adds workspace) kind original
    exact located cwdPlace place cwd_at path_at clear

end

def rootsContext (cwd : PathUri) (roots : List HostPath)
    (temporaryDirectories : Option (List PathUri)) : FileSystemSandboxPolicyContext where
  cwd := cwd
  workspaceRoots := roots.map fromAbsPath
  temporaryDirectories := temporaryDirectories

/-- Materializing widens no access exactly if every subpath outside its root is granted no more by
the kept entries than before, or is denied with a root; and with plain subpaths it changes no
access exactly if it denies no root that granted something. -/
theorem materialized_roots_access_iff (paths : NativePaths) (policy : FileSystemSandboxPolicy)
    (kind : policy.kind = .restricted) (roots : List HostPath) (cwd : PathUri)
    (posix : inferPathConvention cwd = some .posix) (temporaryDirectories : Option (List PathUri)) :
    (∀ entry ∈ (materializeProjectRootsWithPathUris paths policy (roots.map fromAbsPath)).entries,
      ∀ subpath, entry.path ≠ .special (.projectRoots subpath)) ∧
    ((∀ path, capability (resolveAccess paths.windowsJoin
          (materializeProjectRootsWithPathUris paths policy (roots.map fromAbsPath)) path
          (rootsContext cwd roots temporaryDirectories)) ≤
        capability (resolveAccess paths.windowsJoin policy path
          (rootsContext cwd roots temporaryDirectories))) ↔
      deniesHomePath (roots.map fromAbsPath) policy = true ∨
        ∀ target ∈ outsideEntries paths (roots.map fromAbsPath) policy,
          capability (resolveAccess paths.windowsJoin
              (keptPolicy paths (roots.map fromAbsPath) policy) target.1
              (rootsContext cwd roots temporaryDirectories)) ≤
            capability (resolveAccess paths.windowsJoin policy target.1
              (rootsContext cwd roots temporaryDirectories)) ∨
          DeniedByRoot paths roots policy (rootsContext cwd roots temporaryDirectories) target.1) ∧
    (PlainSubpaths policy → ((∀ path, resolveAccess paths.windowsJoin
            (materializeProjectRootsWithPathUris paths policy (roots.map fromAbsPath)) path
            (rootsContext cwd roots temporaryDirectories) =
          resolveAccess paths.windowsJoin policy path
            (rootsContext cwd roots temporaryDirectories)) ↔
        ∀ root ∈ fallbackRoots paths (roots.map fromAbsPath) policy,
          resolveAccess paths.windowsJoin policy root
            (rootsContext cwd roots temporaryDirectories) = .deny)) := by
  have workspace : (rootsContext cwd roots temporaryDirectories).workspaceRoots =
      roots.map fromAbsPath := rfl
  refine ⟨fun _ member => materialized_concrete member, ?_, ?_⟩
  · cases known : deniesHomePath (roots.map fromAbsPath) policy with
    | true =>
      refine iff_of_true ?_ (.inl rfl)
      intro path
      rw [materialize_eq, known, if_pos rfl, resolveAccess_empty]
      exact Nat.zero_le _
    | false =>
      rw [or_iff_right Bool.false_ne_true]
      constructor
      · intro narrower target _
        exact outside_of_narrower posix workspace kind known (narrower target.1)
      · exact narrower_of_outside posix workspace kind known
  · intro plain
    constructor
    · intro same root member
      exact refused_of_same posix workspace kind plain same member
    · exact same_of_refused posix workspace kind plain

def noWindowsPaths : NativePaths where
  windowsJoin _ _ := none
  windowsGlobDirectory _ := false
  nativePathString _ := ""

def workRoot : HostPath := ⟨["project"], by decide⟩

def workContext : FileSystemSandboxPolicyContext :=
  rootsContext (fromAbsPath workRoot) [workRoot] none

def libraryPolicy : FileSystemSandboxPolicy :=
  restricted
    [{ path := .special (.projectRoots none), access := .write },
      { path := .special (.projectRoots (some "lib")), access := .read }]

theorem libraryPolicy_plain : PlainSubpaths libraryPolicy := by
  intro entry member subpath isGlob shape
  simp only [libraryPolicy, restricted, mem_cons, not_mem_nil, or_false] at member
  rcases member with rfl | rfl
  · cases shape
  · cases shape
    decide

theorem library_policy_access_kept :
    libraryPolicy.kind = .restricted ∧ PlainSubpaths libraryPolicy ∧
      ∀ path, resolveAccess noWindowsPaths.windowsJoin
        (materializeProjectRootsWithPathUris noWindowsPaths libraryPolicy [fromAbsPath workRoot]) path
        workContext = resolveAccess noWindowsPaths.windowsJoin libraryPolicy path workContext :=
  ⟨rfl, libraryPolicy_plain, ((materialized_roots_access_iff noWindowsPaths libraryPolicy rfl
    [workRoot] (fromAbsPath workRoot) rfl none).2.2 libraryPolicy_plain).mpr (by decide)⟩

def secretPath : PathUri := .url none ["etc", "secret"]

def secretPolicy : FileSystemSandboxPolicy :=
  restricted
    [{ path := .path (.url none ["etc"]), access := .write },
      { path := .special (.projectRoots (some "/etc/secret")), access := .deny }]

theorem escaping_denial_lost :
    secretPolicy.kind = .restricted ∧
      resolveAccess noWindowsPaths.windowsJoin secretPolicy secretPath workContext = .deny ∧
      resolveAccess noWindowsPaths.windowsJoin
        (materializeProjectRootsWithPathUris noWindowsPaths secretPolicy [fromAbsPath workRoot])
        secretPath workContext = .write := by
  decide

end OpenInterpreter.MaterializedAccess
