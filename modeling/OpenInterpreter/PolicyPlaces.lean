import OpenInterpreter.ReservedNames
import OpenInterpreter.SandboxAccess

/-! A policy as rules on places: its access is that of the deepest rule, and its metadata check
blocks reserved names below write roots. -/

namespace OpenInterpreter.PolicyPlaces

open ExecutorPath SandboxAccess PrefixRules ReservedNames List

abbrev AccessRules := Rules String FileSystemAccessMode

structure Located (convention : Option PathConvention) (uri : PathUri) (place : List String) :
    Prop where
  same : inferPathConvention uri = convention
  found : placeOf uri = some place

variable {convention : Option PathConvention} {path root : PathUri} {place : List String}
    {entries : List (PathUri × FileSystemAccessMode)} {access : FileSystemAccessMode}

theorem Located.startsWith_iff {base : PathUri} {pathPlace basePlace : List String}
    (path_at : Located convention path pathPlace) (base_at : Located convention base basePlace) :
    startsWith path base = true ↔ basePlace <+: pathPlace :=
  ExecutorPath.startsWith_iff (path_at.same.trans base_at.same.symm) path_at.found base_at.found

theorem Located.sameUri_iff {left right : PathUri} {leftPlace rightPlace : List String}
    (left_at : Located convention left leftPlace) (right_at : Located convention right rightPlace) :
    sameUri left right = true ↔ leftPlace = rightPlace := by
  constructor
  · exact placeOf_of_sameUri left_at.found right_at.found
  · intro equal
    rw [equal] at left_at
    exact sameUri_of_placeOf (left_at.same.trans right_at.same.symm) left_at.found right_at.found

theorem Located.of_sameUri {other : PathUri} (path_at : Located convention path place)
    (same : inferPathConvention other = convention) (equal : sameUri path other = true) :
    Located convention other place := by
  cases placed : placeOf other with
  | some otherPlace => exact ⟨same, by rw [placed, placeOf_of_sameUri path_at.found placed equal]⟩
  | none =>
    by_cases identical : path = other
    · have found := path_at.found
      rw [identical, placed] at found
      cases found
    · rw [sameUri_of_no_place placed identical] at equal
      cases equal

theorem Located.length_pos {uri : PathUri} (located : Located convention uri place) :
    0 < place.length := by
  obtain ⟨host, segments, _, _, rfl⟩ := exists_of_placeOf located.found
  exact Nat.succ_pos _

def placeRules (entries : List (PathUri × FileSystemAccessMode)) : AccessRules :=
  entries.filterMap fun entry => (placeOf entry.1).map fun place => (place, entry.2)

theorem mem_placeRules :
    (place, access) ∈ placeRules entries ↔
      ∃ uri, (uri, access) ∈ entries ∧ placeOf uri = some place := by
  rw [placeRules, mem_filterMap]
  constructor
  · rintro ⟨entry, member, mapped⟩
    obtain ⟨other, found, equal⟩ := Option.map_eq_some_iff.mp mapped
    cases equal
    exact ⟨entry.1, member, found⟩
  · rintro ⟨uri, member, found⟩
    exact ⟨(uri, access), member, by rw [found]; rfl⟩

def Clear (entries : List (PathUri × FileSystemAccessMode)) : Prop :=
  ∀ entry ∈ entries, placeOf entry.1 = none → isOpaque entry.1 = true

def deepEntries (entries : List (PathUri × FileSystemAccessMode)) :
    List (PathUri × FileSystemAccessMode × Nat) :=
  entries.filterMap fun entry => (lexicalDepth entry.1).map fun depth => (entry.1, entry.2, depth)

theorem mem_covering {depth : Nat} :
    (root, access, depth) ∈ (deepEntries entries).filter (fun entry => startsWith path entry.1) ↔
      (root, access) ∈ entries ∧ lexicalDepth root = some depth ∧ startsWith path root = true := by
  rw [mem_filter, deepEntries, mem_filterMap]
  constructor
  · rintro ⟨⟨entry, member, mapped⟩, starts⟩
    obtain ⟨value, deep, equal⟩ := Option.map_eq_some_iff.mp mapped
    cases equal
    exact ⟨member, deep, starts⟩
  · rintro ⟨member, deep, starts⟩
    exact ⟨⟨(root, access), member, by rw [deep]; rfl⟩, starts⟩

theorem withDepths_of_clear (clear : Clear entries) :
    withDepths entries = some (deepEntries entries) := by
  induction entries with
  | nil => rfl
  | cons head tail ih =>
    have rest := ih fun entry member => clear entry (mem_cons_of_mem _ member)
    obtain ⟨root, access⟩ := head
    rw [withDepths]
    cases depth : lexicalDepth root with
    | some value => simp [rest, depth, deepEntries]
    | none =>
      have placeless : placeOf root = none := by
        rw [lexicalDepth_eq] at depth
        exact Option.map_eq_none_iff.mp depth
      have shown := clear (root, access) mem_cons_self placeless
      simp [rest, depth, shown, deepEntries]

theorem clear_cons {tail : List (PathUri × FileSystemAccessMode)} :
    Clear ((root, access) :: tail) ↔ (placeOf root = none → isOpaque root = true) ∧ Clear tail :=
  forall_mem_cons

theorem withDepths_of_unclear (unclear : ¬ Clear entries) : withDepths entries = none := by
  induction entries with
  | nil => exact absurd (fun entry member => absurd member not_mem_nil) unclear
  | cons head tail ih =>
    obtain ⟨root, access⟩ := head
    have parts := not_and.mp (clear_cons.not.mp unclear)
    rw [withDepths]
    cases depth : lexicalDepth root with
    | some value =>
      have placed : placeOf root = none → isOpaque root = true := by
        intro placeless
        rw [lexicalDepth_eq, placeless] at depth
        cases depth
      simp [ih (parts placed)]
    | none =>
      by_cases shown : isOpaque root = true
      · simp [ih (parts fun _ => shown)]
      · simp [shown]

variable {windowsJoin : PathUri → String → Option PathUri}
  {context : FileSystemSandboxPolicyContext}

theorem mem_resolvedEntries_iff {policy : FileSystemSandboxPolicy} :
    (root, access) ∈ resolvedEntries windowsJoin policy context ↔
      ∃ entry ∈ policy.entries, root ∈ entryPaths windowsJoin context entry ∧
        entry.access = access := by
  rw [resolvedEntries, mem_flatMap]
  apply exists_congr
  intro entry
  apply and_congr_right
  intro _
  rw [mem_map]
  constructor
  · rintro ⟨path, member, equal⟩
    cases equal
    exact ⟨member, rfl⟩
  · rintro ⟨member, rfl⟩
    exact ⟨root, member, rfl⟩

theorem mem_entryPaths_of_path {entry : FileSystemSandboxEntry}
    (concrete : entry.path = .path root) :
    path ∈ entryPaths windowsJoin context entry ↔
      path = root ∧ inferPathConvention root = inferPathConvention context.cwd := by
  rw [entryPaths, concrete, resolvedPaths, mem_filter, mem_singleton, decide_eq_true_iff]
  constructor
  · rintro ⟨rfl, same⟩
    exact ⟨rfl, same⟩
  · rintro ⟨rfl, same⟩
    exact ⟨rfl, same⟩

variable {policy : FileSystemSandboxPolicy} {cwdPlace : List String}

section

variable (windowsJoin)

def rulesOf (policy : FileSystemSandboxPolicy) (context : FileSystemSandboxPolicyContext) :
    AccessRules :=
  placeRules (resolvedEntries windowsJoin policy context)

variable {windowsJoin}

theorem same_convention_of_resolved
    (member : (root, access) ∈ resolvedEntries windowsJoin policy context) :
    inferPathConvention root = inferPathConvention context.cwd := by
  obtain ⟨entry, _, listed⟩ := mem_flatMap.mp member
  obtain ⟨path, kept, equal⟩ := mem_map.mp listed
  cases equal
  exact of_decide_eq_true (mem_filter.mp kept).2

theorem located_of_resolved {place : List String}
    (member : (root, access) ∈ resolvedEntries windowsJoin policy context)
    (found : placeOf root = some place) : Located (inferPathConvention context.cwd) root place :=
  ⟨same_convention_of_resolved member, found⟩

theorem decides_of_argmax (path_at : Located (inferPathConvention context.cwd) path place)
    {picked : PathUri × FileSystemAccessMode × Nat}
    (found : ((deepEntries (resolvedEntries windowsJoin policy context)).filter fun entry =>
      startsWith path entry.1).argmax (fun entry => toLex (entry.2.2, entry.2.1)) = some picked) :
    ∃ pickedPlace, Decides (rulesOf windowsJoin policy context) place pickedPlace picked.2.1 := by
  obtain ⟨root, access, depth⟩ := picked
  obtain ⟨member, deep, starts⟩ := mem_covering.mp (argmax_mem found)
  obtain ⟨pickedPlace, placed, level⟩ := Option.map_eq_some_iff.mp
    ((lexicalDepth_eq root).symm.trans deep)
  have picked_at := located_of_resolved member placed
  have below : pickedPlace <+: place := (path_at.startsWith_iff picked_at).mp starts
  refine ⟨pickedPlace, mem_placeRules.mpr ⟨root, member, placed⟩, below, ?_⟩
  rintro ⟨otherPlace, otherAccess⟩ other covers
  obtain ⟨uri, otherMember, otherPlaced⟩ := mem_placeRules.mp other
  have other_at := located_of_resolved otherMember otherPlaced
  have otherDepth : lexicalDepth uri = some (otherPlace.length - 1) := by
    rw [lexicalDepth_eq, otherPlaced]
    rfl
  have kept := mem_covering.mpr
    ⟨otherMember, otherDepth, (path_at.startsWith_iff other_at).mpr covers⟩
  have bound := Prod.Lex.toLex_le_toLex.mp (le_of_mem_argmax kept found)
  have positive := picked_at.length_pos
  have otherPositive := other_at.length_pos
  cases bound with
  | inl shallower =>
    have less : otherPlace.length - 1 < depth := shallower
    exact .inl (by change otherPlace.length < pickedPlace.length; omega)
  | inr same =>
    have equal : otherPlace.length - 1 = depth := same.1
    have lengths : otherPlace.length = pickedPlace.length := by omega
    exact .inr ⟨(prefix_of_prefix_length_le covers below lengths.le).eq_of_length lengths, same.2⟩

theorem resolveAccess_eq (kind : policy.kind = .restricted)
    (cwd_at : placeOf context.cwd = some cwdPlace)
    (path_at : Located (inferPathConvention context.cwd) path place)
    (clear : Clear (resolvedEntries windowsJoin policy context)) :
    resolveAccess windowsJoin policy path context =
      (resolve (rulesOf windowsJoin policy context) place).getD .deny := by
  obtain ⟨host, segments, cwd, _, _⟩ := exists_of_placeOf cwd_at
  have convention : inferPathConvention context.cwd = some (urlConvention host segments) := by
    rw [cwd]
    rfl
  have pathDepth : lexicalDepth path ≠ none := by
    rw [lexicalDepth_eq, path_at.found]
    nofun
  have cwdDepth : lexicalDepth context.cwd ≠ none := by
    rw [lexicalDepth_eq, cwd_at]
    nofun
  have ordinary : ¬ (inferPathConvention path ≠ some (urlConvention host segments) ∨
      lexicalDepth path = none ∨ lexicalDepth context.cwd = none) := by
    rw [path_at.same, convention]
    simp [pathDepth, cwdDepth]
  simp only [resolveAccess, kind, convention, if_neg ordinary, withDepths_of_clear clear]
  split
  · rename_i empty
    have uncovered : resolve (rulesOf windowsJoin policy context) place = none := by
      apply Option.eq_none_iff_forall_ne_some.mpr
      intro value resolved
      obtain ⟨decider, decides⟩ := resolve_eq_some.mp resolved
      obtain ⟨uri, member, placed⟩ := mem_placeRules.mp decides.rule
      have starts := (path_at.startsWith_iff (located_of_resolved member placed)).mpr decides.covers
      have depth : lexicalDepth uri = some (decider.length - 1) := by
        rw [lexicalDepth_eq, placed]
        rfl
      have kept := mem_covering.mpr ⟨member, depth, starts⟩
      rw [argmax_eq_none.mp empty] at kept
      cases kept
    rw [uncovered]
    rfl
  · rename_i picked found
    obtain ⟨pickedPlace, decides⟩ := decides_of_argmax path_at found
    rw [resolve_eq_some.mpr ⟨pickedPlace, decides⟩]
    rfl

theorem clear_of_granted (kind : policy.kind = .restricted)
    (granted : resolveAccess windowsJoin policy path context ≠ .deny) :
    ∃ cwdPlace place, placeOf context.cwd = some cwdPlace ∧
      Located (inferPathConvention context.cwd) path place ∧
      Clear (resolvedEntries windowsJoin policy context) := by
  simp only [resolveAccess, kind] at granted
  split at granted
  · exact absurd rfl granted
  · rename_i convention found
    split at granted
    · exact absurd rfl granted
    · rename_i ordinary
      simp only [not_or, not_not] at ordinary
      obtain ⟨same, deep, cwdDeep⟩ := ordinary
      rw [lexicalDepth_eq, Option.map_eq_none_iff] at deep cwdDeep
      obtain ⟨place, placed⟩ := Option.ne_none_iff_exists'.mp deep
      obtain ⟨cwdPlace, cwd_at⟩ := Option.ne_none_iff_exists'.mp cwdDeep
      refine ⟨cwdPlace, place, cwd_at, ⟨by rw [same, found], placed⟩, ?_⟩
      by_contra unclear
      rw [withDepths_of_unclear unclear] at granted
      exact granted rfl

theorem clear_of_writable (writable : resolveAccess windowsJoin policy path context = .write)
    (kind : policy.kind = .restricted) :
    ∃ cwdPlace place, placeOf context.cwd = some cwdPlace ∧
      Located (inferPathConvention context.cwd) path place ∧
      Clear (resolvedEntries windowsJoin policy context) := by
  apply clear_of_granted kind
  rw [writable]
  nofun

variable (kind : policy.kind = .restricted)
include kind

theorem resolveAccess_congr {other : FileSystemSandboxPolicy}
    (otherKind : other.kind = .restricted)
    (same : ∀ entry, entry ∈ resolvedEntries windowsJoin policy context ↔
      entry ∈ resolvedEntries windowsJoin other context) (path : PathUri) :
    resolveAccess windowsJoin policy path context = resolveAccess windowsJoin other path context := by
  have clear_iff : Clear (resolvedEntries windowsJoin policy context) ↔
      Clear (resolvedEntries windowsJoin other context) :=
    forall_congr' fun entry => imp_congr_left (same entry)
  have rules : ∀ rule, rule ∈ rulesOf windowsJoin policy context ↔
      rule ∈ rulesOf windowsJoin other context := by
    rintro ⟨place, access⟩
    rw [rulesOf, rulesOf, mem_placeRules, mem_placeRules]
    exact exists_congr fun uri => and_congr_left' (same (uri, access))
  by_cases granted : resolveAccess windowsJoin policy path context = .deny
  · by_cases otherGranted : resolveAccess windowsJoin other path context = .deny
    · rw [granted, otherGranted]
    · obtain ⟨cwdPlace, place, cwd_at, path_at, clear⟩ := clear_of_granted otherKind otherGranted
      rw [resolveAccess_eq kind cwd_at path_at (clear_iff.mpr clear),
        resolveAccess_eq otherKind cwd_at path_at clear, resolve_congr rules]
  · obtain ⟨cwdPlace, place, cwd_at, path_at, clear⟩ := clear_of_granted kind granted
    rw [resolveAccess_eq kind cwd_at path_at clear,
      resolveAccess_eq otherKind cwd_at path_at (clear_iff.mp clear), resolve_congr rules]

theorem resolveAccess_write_iff (cwd_at : placeOf context.cwd = some cwdPlace)
    (path_at : Located (inferPathConvention context.cwd) path place)
    (clear : Clear (resolvedEntries windowsJoin policy context)) :
    resolveAccess windowsJoin policy path context = .write ↔
      ∃ decider, Decides (rulesOf windowsJoin policy context) place decider .write := by
  rw [resolveAccess_eq kind cwd_at path_at clear, ← resolve_eq_some]
  cases resolve (rulesOf windowsJoin policy context) place with
  | none | some => simp

end

theorem protected_name_plain {name : String} (member : name ∈ protectedMetadataPathNames) :
    (∀ convention, holdsSeparator convention name = false) ∧ isWindowsDriveUriSegment name = false ∧
      ∀ convention, comparedSegment convention name = name := by
  simp only [protectedMetadataPathNames, mem_cons, not_mem_nil, or_false] at member
  rcases member with rfl | rfl | rfl
  all_goals
    refine ⟨?_, by decide, ?_⟩
    all_goals
      intro convention
      cases convention <;> decide

section

variable {rootPlace : List String} {name : String} {protectedPath : PathUri}

theorem joinDescendant_protected (root_at : Located convention root rootPlace)
    (member : name ∈ protectedMetadataPathNames) :
    ∃ protectedPath, joinDescendant root name = some protectedPath ∧
      Located convention protectedPath (rootPlace ++ [name]) := by
  obtain ⟨plain, undriven, lower⟩ := protected_name_plain member
  obtain ⟨descendant, joined, same, placed⟩ :=
    joinDescendant_of_place root_at.found plain undriven lower
  exact ⟨descendant, joined, same.trans root_at.same, placed⟩

theorem located_of_joined (same : inferPathConvention root = convention)
    (member : name ∈ protectedMetadataPathNames)
    (joined : joinDescendant root name = some protectedPath) :
    ∃ rootPlace, Located convention root rootPlace ∧
      Located convention protectedPath (rootPlace ++ [name]) := by
  cases placed : placeOf root with
  | none =>
    rw [joinDescendant_of_no_place name placed] at joined
    cases joined
  | some rootPlace =>
    have root_at : Located convention root rootPlace := ⟨same, placed⟩
    obtain ⟨descendant, equal, descendant_at⟩ := joinDescendant_protected root_at member
    cases joined.symm.trans equal
    exact ⟨rootPlace, root_at, descendant_at⟩

section

variable (path_at : Located convention path place)
include path_at

theorem protectedOf_found (root_at : Located convention root rootPlace)
    (found : protectedOf path root = some (protectedPath, name)) :
    Located convention protectedPath (rootPlace ++ [name]) ∧
      guardOf protectedMetadataPathNames place rootPlace = some (rootPlace ++ [name]) := by
  obtain ⟨other, member, chosen⟩ := exists_of_findSome?_eq_some found
  obtain ⟨otherPath, joined, other_at⟩ := joinDescendant_protected root_at member
  simp only [joined] at chosen
  split at chosen
  · rename_i starts
    cases chosen
    have below := (path_at.startsWith_iff other_at).mp starts
    exact ⟨other_at, guardOf_eq_some.mpr ⟨name, member, rfl, below⟩⟩
  · cases chosen

theorem protectedOf_none
    (root_at : Located convention root rootPlace) (missing : protectedOf path root = none) :
    guardOf protectedMetadataPathNames place rootPlace = none := by
  apply Option.eq_none_iff_forall_ne_some.mpr
  intro guard found
  obtain ⟨name, member, rfl, below⟩ := guardOf_eq_some.mp found
  obtain ⟨protectedPath, joined, protected_at⟩ := joinDescendant_protected root_at member
  have skipped := findSome?_eq_none_iff.mp missing name member
  simp [joined, (path_at.startsWith_iff protected_at).mpr below] at skipped

omit path_at in
theorem protectedOf_placeless (path : PathUri) (placeless : placeOf root = none) :
    protectedOf path root = none := by
  apply findSome?_eq_none_iff.mpr
  intro name _
  rw [joinDescendant_of_no_place name placeless]

theorem first_protected {roots : List PathUri}
    (same : ∀ root ∈ roots, inferPathConvention root = convention) :
    match roots.findSome? (protectedOf path) with
    | none => firstGuard protectedMetadataPathNames (roots.filterMap placeOf) place = none
    | some (protectedPath, _) =>
      ∃ guard, Located convention protectedPath guard ∧
        firstGuard protectedMetadataPathNames (roots.filterMap placeOf) place = some guard := by
  induction roots with
  | nil => rfl
  | cons root tail ih =>
    have rest := ih fun other member => same other (mem_cons_of_mem _ member)
    rw [findSome?_cons]
    cases placed : placeOf root with
    | none =>
      rw [protectedOf_placeless path placed, filterMap_cons_none placed]
      exact rest
    | some rootPlace =>
      have root_at : Located convention root rootPlace := ⟨same root mem_cons_self, placed⟩
      rw [filterMap_cons_some placed, firstGuard, findSome?_cons]
      cases found : protectedOf path root with
      | none =>
        rw [protectedOf_none path_at root_at found]
        exact rest
      | some chosen =>
        obtain ⟨protected_at, guarded⟩ := protectedOf_found path_at root_at found
        rw [guarded]
        exact ⟨_, protected_at, rfl⟩

theorem startsWith_placeless (placeless : placeOf root = none) : startsWith path root = false := by
  apply startsWith_of_no_place placeless
  intro equal
  have found := path_at.found
  rw [equal, placeless] at found
  cases found

theorem Located.exists_of_startsWith
    (starts : startsWith path root = true) : ∃ rootPlace, Located convention root rootPlace := by
  have same := (inferPathConvention_of_startsWith starts).symm.trans path_at.same
  cases found : placeOf root with
  | some rootPlace => exact ⟨rootPlace, same, found⟩
  | none =>
    rw [startsWith_placeless path_at found] at starts
    cases starts

theorem any_override {guard : List String} (protected_at : Located convention protectedPath guard)
    {roots : List PathUri} (same : ∀ root ∈ roots, inferPathConvention root = convention) :
    (roots.any fun root => startsWith path root ∧ startsWith root protectedPath) =
      reopened (roots.filterMap placeOf) place guard := by
  apply Bool.eq_iff_iff.mpr
  rw [reopened_iff, any_eq_true]
  constructor
  · rintro ⟨root, member, inside⟩
    have parts := of_decide_eq_true inside
    cases placed : placeOf root with
    | none =>
      rw [startsWith_placeless path_at placed] at parts
      cases parts.1
    | some rootPlace =>
      have root_at : Located convention root rootPlace := ⟨same root member, placed⟩
      exact ⟨rootPlace, mem_filterMap.mpr ⟨root, member, placed⟩,
        (path_at.startsWith_iff root_at).mp parts.1,
        (root_at.startsWith_iff protected_at).mp parts.2⟩
  · rintro ⟨rootPlace, member, covers, inner⟩
    obtain ⟨root, listed, placed⟩ := mem_filterMap.mp member
    have root_at : Located convention root rootPlace := ⟨same root listed, placed⟩
    exact ⟨root, listed, decide_eq_true ⟨(path_at.startsWith_iff root_at).mpr covers,
      (root_at.startsWith_iff protected_at).mpr inner⟩⟩

end

end

section

variable (windowsJoin)

def writePlaces (policy : FileSystemSandboxPolicy) (context : FileSystemSandboxPolicyContext) :
    List (List String) :=
  (writeRoots (resolvedEntries windowsJoin policy context)).filterMap placeOf

variable {windowsJoin}

theorem mem_writeRoots {entries : List (PathUri × FileSystemAccessMode)} :
    root ∈ writeRoots entries ↔ (root, .write) ∈ entries := by
  simp [writeRoots, FileSystemAccessMode.canWrite]

theorem mem_writePlaces {root : List String} :
    root ∈ writePlaces windowsJoin policy context ↔
      (root, .write) ∈ rulesOf windowsJoin policy context := by
  rw [writePlaces, rulesOf, mem_placeRules]
  simp [mem_writeRoots]

theorem writePlaces_eq :
    writePlaces windowsJoin policy context =
      ((rulesOf windowsJoin policy context).filter fun rule => rule.2.canWrite).map Prod.fst := by
  rw [writePlaces, rulesOf, placeRules, writeRoots]
  induction resolvedEntries windowsJoin policy context with
  | nil => rfl
  | cons entry rest ih =>
    obtain ⟨root, access⟩ := entry
    cases placed : placeOf root <;> cases writes : access.canWrite <;>
      simpa [placed, writes] using ih

theorem metadataWriteDenial_isSome (kind : policy.kind = .restricted)
    (path_at : Located (inferPathConvention context.cwd) path place) :
    (metadataWriteDenial windowsJoin policy path context).isSome =
      blocked protectedMetadataPathNames (writePlaces windowsJoin policy context) place := by
  have same : ∀ root ∈ writeRoots (resolvedEntries windowsJoin policy context),
      inferPathConvention root = inferPathConvention context.cwd := fun root member =>
    same_convention_of_resolved (mem_writeRoots.mp member)
  have first := first_protected path_at same
  rw [metadataWriteDenial, kind]
  cases found : (writeRoots (resolvedEntries windowsJoin policy context)).findSome?
      (protectedOf path) with
  | none =>
    simp only [found] at first ⊢
    rw [blocked, writePlaces, first]
    rfl
  | some protectedName =>
    simp only [found] at first ⊢
    obtain ⟨guard, protected_at, guarded⟩ := first
    rw [writePlaces, blocked_of_first guarded, any_override path_at protected_at same]
    cases reopened _ place guard <;> rfl

theorem access_of_canWritePath (allowed : canWritePath windowsJoin policy path context = true) :
    resolveAccess windowsJoin policy path context = .write := by
  by_contra other
  simp [canWritePath, FileSystemAccessMode.canWrite, other] at allowed

theorem canWritePath_iff (kind : policy.kind = .restricted)
    (cwd_at : placeOf context.cwd = some cwdPlace)
    (path_at : Located (inferPathConvention context.cwd) path place)
    (clear : Clear (resolvedEntries windowsJoin policy context)) :
    canWritePath windowsJoin policy path context = true ↔
      (∃ decider, Decides (rulesOf windowsJoin policy context) place decider .write) ∧
        (hasFullDiskWriteAccessWithContext policy context = true ∨
          blocked protectedMetadataPathNames (writePlaces windowsJoin policy context) place =
            false) := by
  rw [← resolveAccess_write_iff kind cwd_at path_at clear,
    ← metadataWriteDenial_isSome kind path_at, canWritePath]
  cases resolveAccess windowsJoin policy path context <;>
    simp [FileSystemAccessMode.canWrite]

end

end OpenInterpreter.PolicyPlaces
