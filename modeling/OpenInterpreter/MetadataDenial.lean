import Mathlib.Data.List.Perm.Basic
import OpenInterpreter.PolicyPlaces

/-! When the metadata check of `can_write_path` covers every protected directory over a path, in
every order of the policy's entries. -/

namespace OpenInterpreter.MetadataDenial

open ExecutorPath SandboxAccess PrefixRules ReservedNames PolicyPlaces List Bool

section

variable (windowsJoin : PathUri → String → Option PathUri)

variable (policy : FileSystemSandboxPolicy)

variable (context : FileSystemSandboxPolicyContext)

/-- Each protected directory over the path has a write root at or below it that contains the
path. -/
def MetadataOverridden (path : PathUri) : Prop :=
  ∀ root ∈ writeRoots (resolvedEntries windowsJoin policy context),
    ∀ name ∈ protectedMetadataPathNames, ∀ protectedPath,
      joinDescendant root name = some protectedPath → startsWith path protectedPath = true →
      ∃ other ∈ writeRoots (resolvedEntries windowsJoin policy context),
        startsWith path other = true ∧ startsWith other protectedPath = true

def MayWrite (path : PathUri) : Prop :=
  resolveAccess windowsJoin policy path context = .write ∧
    (hasFullDiskWriteAccessWithContext policy context = true ∨
      MetadataOverridden windowsJoin policy context path)

/-- A writable metadata directory of a write root, with no write entry of its own, is found first:
an entry lists the write root before every root that has it inside its own metadata. -/
def NestedRootsFirst : Prop :=
  ∀ root ∈ writeRoots (resolvedEntries windowsJoin policy context),
    ∀ name ∈ protectedMetadataPathNames, ∀ protectedPath,
      joinDescendant root name = some protectedPath →
      resolveAccess windowsJoin policy protectedPath context = .write →
      (∀ other ∈ writeRoots (resolvedEntries windowsJoin policy context),
        sameUri protectedPath other = false) →
      ∀ entry ∈ policy.entries, entry.access = .write →
        ∀ before outer after, entryPaths windowsJoin context entry = before ++ outer :: after →
          ∀ outerName ∈ protectedMetadataPathNames, ∀ outerPath,
            joinDescendant outer outerName = some outerPath → startsWith root outerPath = true →
            ∃ inner ∈ before, sameUri root inner = true

def groupsOf : List (List (List String)) :=
  policy.entries.map fun entry =>
    if entry.access.canWrite then (entryPaths windowsJoin context entry).filterMap placeOf else []

variable {windowsJoin} {policy : FileSystemSandboxPolicy}
  {context : FileSystemSandboxPolicyContext} {path : PathUri} {place cwdPlace : List String}

theorem writePlaces_eq_flatten :
    writePlaces windowsJoin policy context = (groupsOf windowsJoin policy context).flatten := by
  rw [writePlaces, resolvedEntries, groupsOf]
  induction policy.entries with
  | nil => rfl
  | cons entry rest ih =>
    rw [map_cons, flatten_cons, ← ih, flatMap_cons, writeRoots, writeRoots,
      filter_append, map_append]
    cases writes : entry.access.canWrite <;> simp [filter_map, Function.comp_def, writes]

theorem metadataOverridden_iff (path_at : Located (inferPathConvention context.cwd) path place) :
    MetadataOverridden windowsJoin policy context path ↔
      AllReopened protectedMetadataPathNames (writePlaces windowsJoin policy context) place := by
  have same : ∀ root ∈ writeRoots (resolvedEntries windowsJoin policy context),
      inferPathConvention root = inferPathConvention context.cwd := fun root member =>
    same_convention_of_resolved (mem_writeRoots.mp member)
  have override : ∀ {protectedPath guard},
      Located (inferPathConvention context.cwd) protectedPath guard →
      ((∃ other ∈ writeRoots (resolvedEntries windowsJoin policy context),
        startsWith path other = true ∧ startsWith other protectedPath = true) ↔
        reopened (writePlaces windowsJoin policy context) place guard = true) := by
    intro protectedPath guard protected_at
    rw [writePlaces, ← any_override path_at protected_at same]
    simp
  constructor
  · intro overridden rootPlace member name listed below
    obtain ⟨root, found, placed⟩ := mem_filterMap.mp member
    obtain ⟨protectedPath, joined, protected_at⟩ :=
      joinDescendant_protected ⟨same root found, placed⟩ listed
    exact (override protected_at).mp (overridden root found name listed protectedPath joined
      ((path_at.startsWith_iff protected_at).mpr below))
  · intro all root found name listed protectedPath joined starts
    obtain ⟨rootPlace, root_at, protected_at⟩ := located_of_joined (same root found) listed joined
    exact (override protected_at).mpr (all rootPlace
      (mem_filterMap.mpr ⟨root, found, root_at.found⟩) name listed
      ((path_at.startsWith_iff protected_at).mp starts))

/-- A metadata directory that the access rules open and that has no write entry of its own. -/
structure Exposed (rules : AccessRules) (roots : List (List String)) (root : List String)
    (name : String) : Prop where
  present : root ∈ roots
  listed : name ∈ protectedMetadataPathNames
  writable : ∃ decider, Decides rules (root ++ [name]) decider .write
  absent : root ++ [name] ∉ roots

def ExposedFirst (rules : AccessRules) (roots : List (List String)) : Prop :=
  ∀ root name, Exposed rules roots root name →
    firstGuard protectedMetadataPathNames roots (root ++ [name]) = some (root ++ [name])

theorem canWritePath_of_mayWrite (kind : policy.kind = .restricted)
    (allowed : MayWrite windowsJoin policy context path) :
    canWritePath windowsJoin policy path context = true := by
  obtain ⟨cwdPlace, place, cwd_at, path_at, clear⟩ := clear_of_writable allowed.1 kind
  rw [canWritePath_iff kind cwd_at path_at clear,
    ← resolveAccess_write_iff kind cwd_at path_at clear]
  cases allowed.2 with
  | inl full => exact ⟨allowed.1, .inl full⟩
  | inr overridden =>
    exact ⟨allowed.1, .inr (blocked_of_allReopened ((metadataOverridden_iff path_at).mp overridden))⟩

theorem mayWrite_of_canWritePath (kind : policy.kind = .restricted)
    (first : ExposedFirst (rulesOf windowsJoin policy context)
      (writePlaces windowsJoin policy context))
    (allowed : canWritePath windowsJoin policy path context = true) :
    MayWrite windowsJoin policy context path := by
  have writes := access_of_canWritePath allowed
  refine ⟨writes, ?_⟩
  obtain ⟨cwdPlace, place, cwd_at, path_at, clear⟩ := clear_of_writable writes kind
  obtain ⟨⟨root, decides⟩, free⟩ := (canWritePath_iff kind cwd_at path_at clear).mp allowed
  cases free with
  | inl full => exact .inl full
  | inr unblocked =>
    have present := mem_writePlaces.mpr decides.rule
    have deepest : ∀ other ∈ writePlaces windowsJoin policy context,
        other <+: place → other <+: root := fun other member covers =>
      decides.covers_place (mem_writePlaces.mp member) covers
    refine .inr ((metadataOverridden_iff path_at).mpr
      (allReopened_of_open present decides.covers deepest ?_ unblocked))
    intro name listed below
    apply first root name
    refine ⟨present, listed, ⟨root, decides.between (prefix_append _ _) below⟩, ?_⟩
    intro member
    have long := (deepest _ member below).length_le
    simp only [length_append, length_singleton] at long
    omega

variable {entries : List FileSystemSandboxEntry}

section

variable (perm : entries.Perm policy.entries)
include perm

theorem mem_resolved_of_perm (entry : PathUri × FileSystemAccessMode) :
    entry ∈ resolvedEntries windowsJoin { policy with entries := entries } context ↔
      entry ∈ resolvedEntries windowsJoin policy context :=
  (perm.flatMap_right _).mem_iff

theorem mem_rules_of_perm (rule : List String × FileSystemAccessMode) :
    rule ∈ rulesOf windowsJoin { policy with entries := entries } context ↔
      rule ∈ rulesOf windowsJoin policy context := by
  rw [rulesOf, rulesOf, mem_placeRules, mem_placeRules]
  exact exists_congr fun uri => and_congr_left' (mem_resolved_of_perm perm _)

theorem mem_writePlaces_of_perm (root : List String) :
    root ∈ writePlaces windowsJoin { policy with entries := entries } context ↔
      root ∈ writePlaces windowsJoin policy context := by
  rw [mem_writePlaces, mem_writePlaces, mem_rules_of_perm perm]

theorem fullDisk_of_perm :
    hasFullDiskWriteAccessWithContext { policy with entries := entries } context =
      hasFullDiskWriteAccessWithContext policy context := by
  have narrows : ∀ convention, narrowsWrite entries convention =
      narrowsWrite policy.entries convention := by
    intro convention
    funext entry
    simp [narrowsWrite, hasSameTargetWriteOverride, perm.any_eq]
  simp [hasFullDiskWriteAccessWithContext, hasFullDiskWriteAccessForConvention, hasRootAccess,
    hasWriteNarrowingEntries, narrows, perm.any_eq]

end

theorem mayWrite_of_perm (kind : policy.kind = .restricted) (perm : entries.Perm policy.entries) :
    MayWrite windowsJoin { policy with entries := entries } context path ↔
      MayWrite windowsJoin policy context path := by
  have roots : ∀ root, root ∈ writeRoots
      (resolvedEntries windowsJoin { policy with entries := entries } context) ↔
      root ∈ writeRoots (resolvedEntries windowsJoin policy context) := by
    intro root
    rw [mem_writeRoots, mem_writeRoots, mem_resolved_of_perm perm]
  have access : resolveAccess windowsJoin { policy with entries := entries } path context =
      resolveAccess windowsJoin policy path context := by
    apply resolveAccess_congr
    · exact kind
    · exact kind
    · exact mem_resolved_of_perm perm
  rw [MayWrite, MayWrite, fullDisk_of_perm perm, access]
  simp [MetadataOverridden, roots]

variable {root : List String} {name : String} {entry : FileSystemSandboxEntry}

theorem Exposed.congr {rules rules' : AccessRules} {roots roots' : List (List String)}
    (sameRules : ∀ rule, rule ∈ rules ↔ rule ∈ rules')
    (sameRoots : ∀ root, root ∈ roots ↔ root ∈ roots') (exposed : Exposed rules roots root name) :
    Exposed rules' roots' root name where
  present := (sameRoots root).mp exposed.present
  listed := exposed.listed
  writable := by
    obtain ⟨decider, decides⟩ := exposed.writable
    exact ⟨decider, decides.congr sameRules⟩
  absent := fun member => exposed.absent ((sameRoots _).mpr member)

theorem same_convention_of_entryPaths {root : PathUri}
    (member : root ∈ entryPaths windowsJoin context entry) :
    inferPathConvention root = inferPathConvention context.cwd :=
  of_decide_eq_true (mem_filter.mp member).2

theorem absent_iff (path_at : Located (inferPathConvention context.cwd) path place) :
    place ∉ writePlaces windowsJoin policy context ↔
      ∀ other ∈ writeRoots (resolvedEntries windowsJoin policy context),
        sameUri path other = false := by
  constructor
  · intro absent other member
    apply eq_false_iff.mpr
    intro equal
    have same := same_convention_of_resolved (mem_writeRoots.mp member)
    exact absent (mem_filterMap.mpr ⟨other, member, (path_at.of_sameUri same equal).found⟩)
  · intro alone present
    obtain ⟨other, member, placed⟩ := mem_filterMap.mp present
    have other_at := located_of_resolved (mem_writeRoots.mp member) placed
    have equal := (path_at.sameUri_iff other_at).mpr rfl
    rw [alone other member] at equal
    cases equal

section

variable (kind : policy.kind = .restricted) (cwd_at : placeOf context.cwd = some cwdPlace)
  (clear : Clear (resolvedEntries windowsJoin policy context))
include kind cwd_at clear

section

variable (nested : NestedRootsFirst windowsJoin policy context)
include nested

theorem group_finds_exposed
    (exposed : Exposed (rulesOf windowsJoin policy context)
      (writePlaces windowsJoin policy context) root name) (member : entry ∈ policy.entries)
    (writes : entry.access = .write) {guard : List String}
    (found : firstGuard protectedMetadataPathNames
      ((entryPaths windowsJoin context entry).filterMap placeOf) (root ++ [name]) = some guard) :
    guard = root ++ [name] := by
  obtain ⟨rootUri, resolved, placed⟩ := mem_placeRules.mp (mem_writePlaces.mp exposed.present)
  have root_at := located_of_resolved resolved placed
  obtain ⟨protectedPath, joined, protected_at⟩ := joinDescendant_protected root_at exposed.listed
  have writable := (resolveAccess_write_iff kind cwd_at protected_at clear).mpr exposed.writable
  have alone := (absent_iff protected_at).mp exposed.absent
  obtain ⟨seen, outerPlace, later, split, guarded, unguarded⟩ := findSome?_eq_some_iff.mp found
  obtain ⟨outerName, outerListed, rfl, below⟩ := guardOf_eq_some.mp guarded
  cases prefix_concat_iff.mp below with
  | inl same => exact same
  | inr inside =>
    -- The outer root comes first, so the entry must list the inner one before it.
    obtain ⟨front, back, whole, rfl, rest⟩ := filterMap_eq_append_iff.mp split
    obtain ⟨gap, outer, after, rfl, skipped, outerPlaced, _⟩ := filterMap_eq_cons_iff.mp rest
    rw [← append_assoc] at whole
    have listed : outer ∈ entryPaths windowsJoin context entry := by
      rw [whole]
      simp
    have outer_at : Located (inferPathConvention context.cwd) outer outerPlace :=
      ⟨same_convention_of_entryPaths listed, outerPlaced⟩
    obtain ⟨outerPath, outerJoined, outerPath_at⟩ := joinDescendant_protected outer_at outerListed
    obtain ⟨inner, early, equal⟩ := nested rootUri (mem_writeRoots.mpr resolved) name
      exposed.listed protectedPath joined writable alone entry member writes (front ++ gap) outer
      after whole outerName outerListed outerPath outerJoined
      ((root_at.startsWith_iff outerPath_at).mpr inside)
    have inner_listed : inner ∈ entryPaths windowsJoin context entry := by
      rw [whole]
      exact mem_append_left _ early
    have inner_at := root_at.of_sameUri (same_convention_of_entryPaths inner_listed) equal
    cases mem_append.mp early with
    | inl first =>
      have silent := unguarded root (mem_filterMap.mpr ⟨inner, first, inner_at.found⟩)
      rw [guardOf_eq_some.mpr ⟨name, exposed.listed, rfl, prefix_refl _⟩] at silent
      cases silent
    | inr between =>
      have placeless := skipped inner between
      rw [inner_at.found] at placeless
      cases placeless

theorem exposedFirst_of_nested (perm : entries.Perm policy.entries) :
    ExposedFirst (rulesOf windowsJoin { policy with entries := entries } context)
      (writePlaces windowsJoin { policy with entries := entries } context) := by
  intro root name exposed
  have present := exposed.present
  rw [writePlaces_eq_flatten] at present ⊢
  obtain ⟨group, member, inside⟩ := mem_flatten.mp present
  apply firstGuard_flatten member inside exposed.listed
  intro other otherMember guard found
  obtain ⟨entry, listed, rfl⟩ := mem_map.mp otherMember
  split at found
  · rename_i writes
    have original := exposed.congr (mem_rules_of_perm perm) (mem_writePlaces_of_perm perm)
    exact group_finds_exposed kind cwd_at clear nested original (perm.mem_iff.mp listed)
      (of_decide_eq_true writes) found
  · cases found

end

theorem unprotected_of_hidden
    (exposed : Exposed (rulesOf windowsJoin policy context)
      (writePlaces windowsJoin policy context) root name) {protectedPath : PathUri}
    (protected_at : Located (inferPathConvention context.cwd) protectedPath (root ++ [name]))
    (hidden : firstGuard protectedMetadataPathNames (writePlaces windowsJoin policy context)
      (root ++ [name]) ≠ some (root ++ [name])) :
    canWritePath windowsJoin policy protectedPath context = true ∧
      ¬ MetadataOverridden windowsJoin policy context protectedPath := by
  have unblocked : blocked protectedMetadataPathNames (writePlaces windowsJoin policy context)
      (root ++ [name]) = false := by
    apply eq_false_iff.mpr
    intro shut
    exact hidden ((blocked_entry_iff exposed.present exposed.listed exposed.absent).mp shut)
  constructor
  · exact (canWritePath_iff kind cwd_at protected_at clear).mpr ⟨exposed.writable, .inr unblocked⟩
  · intro overridden
    have again := (metadataOverridden_iff protected_at).mp overridden root exposed.present name
      exposed.listed (prefix_refl _)
    have shut : reopened (writePlaces windowsJoin policy context) (root ++ [name])
        (root ++ [name]) = false := by
      apply not_reopened_self
      intro other member equal
      rw [equal] at member
      exact exposed.absent member
    rw [shut] at again
    cases again

end

theorem hidden_of_outer_first {rootUri outer outerPath : PathUri} {outerPlace : List String}
    {outerName : String} {before after : List PathUri}
    (root_at : Located (inferPathConvention context.cwd) rootUri root)
    (outer_at : Located (inferPathConvention context.cwd) outer outerPlace)
    (outerListed : outerName ∈ protectedMetadataPathNames)
    (outerPath_at : Located (inferPathConvention context.cwd) outerPath (outerPlace ++ [outerName]))
    (starts : startsWith rootUri outerPath = true) (writes : entry.access = .write)
    (whole : entryPaths windowsJoin context entry = before ++ outer :: after)
    (missing : ¬ ∃ inner ∈ before, sameUri rootUri inner = true)
    (rest : List FileSystemSandboxEntry) :
    firstGuard protectedMetadataPathNames
        (writePlaces windowsJoin { policy with entries := entry :: rest } context)
        (root ++ [name]) ≠ some (root ++ [name]) := by
  have unseen : root ∉ before.filterMap placeOf := by
    intro seen
    obtain ⟨inner, early, placed⟩ := mem_filterMap.mp seen
    have innerMember : inner ∈ entryPaths windowsJoin context entry := by
      rw [whole]
      exact mem_append_left _ early
    have inner_at : Located (inferPathConvention context.cwd) inner root :=
      ⟨same_convention_of_entryPaths innerMember, placed⟩
    exact missing ⟨inner, early, (root_at.sameUri_iff inner_at).mpr rfl⟩
  have inside := (root_at.startsWith_iff outerPath_at).mp starts
  rw [writePlaces_eq_flatten, groupsOf, map_cons, flatten_cons, writes,
    if_pos (by decide : FileSystemAccessMode.write.canWrite = true), whole, filterMap_append,
    filterMap_cons_some outer_at.found, append_assoc]
  exact firstGuard_hidden outerListed inside unseen

theorem nested_of_every_order (kind : policy.kind = .restricted)
    (partially : hasFullDiskWriteAccessWithContext policy context = false)
    (always : ∀ entries, entries.Perm policy.entries → ∀ path,
      inferPathConvention path = inferPathConvention context.cwd → lexicalDepth path ≠ none →
      canWritePath windowsJoin { policy with entries := entries } path context = true →
        MayWrite windowsJoin { policy with entries := entries } context path) :
    NestedRootsFirst windowsJoin policy context := by
  intro rootUri rootMember name listed protectedPath joined writable alone entry member writes
    before outer after whole outerName outerListed outerPath outerJoined starts
  obtain ⟨cwdPlace, _, cwd_at, _, clear⟩ := clear_of_writable writable kind
  have rootSame := same_convention_of_resolved (mem_writeRoots.mp rootMember)
  obtain ⟨root, root_at, protected_at⟩ := located_of_joined rootSame listed joined
  have outerMember : outer ∈ entryPaths windowsJoin context entry := by
    rw [whole]
    simp
  obtain ⟨outerPlace, outer_at, outerPath_at⟩ :=
    located_of_joined (same_convention_of_entryPaths outerMember) outerListed outerJoined
  have original : Exposed (rulesOf windowsJoin policy context)
      (writePlaces windowsJoin policy context) root name :=
    ⟨mem_filterMap.mpr ⟨rootUri, rootMember, root_at.found⟩, listed,
      (resolveAccess_write_iff kind cwd_at protected_at clear).mp writable,
      (absent_iff protected_at).mpr alone⟩
  by_contra missing
  have perm := (perm_cons_erase member).symm
  have exposed := original.congr (fun rule => (mem_rules_of_perm perm rule).symm)
    (fun root => (mem_writePlaces_of_perm perm root).symm)
  have hidden : firstGuard protectedMetadataPathNames
      (writePlaces windowsJoin { policy with entries := entry :: policy.entries.erase entry } context)
      (root ++ [name]) ≠ some (root ++ [name]) :=
    hidden_of_outer_first root_at outer_at outerListed outerPath_at starts writes whole missing _
  have clear' : Clear (resolvedEntries windowsJoin
      { policy with entries := entry :: policy.entries.erase entry } context) := fun other found =>
    clear other ((mem_resolved_of_perm perm other).mp found)
  obtain ⟨allowed, exception⟩ :=
    unprotected_of_hidden (by exact kind) cwd_at clear' exposed protected_at hidden
  have deep : lexicalDepth protectedPath ≠ none := by
    rw [lexicalDepth_eq, protected_at.found]
    nofun
  have granted := always _ perm protectedPath protected_at.same deep allowed
  cases granted.2 with
  | inl full =>
    rw [fullDisk_of_perm perm, partially] at full
    cases full
  | inr overridden => exact exception overridden

theorem metadata_protected_in_every_order_iff (windowsJoin : PathUri → String → Option PathUri)
    (policy : FileSystemSandboxPolicy) (context : FileSystemSandboxPolicyContext)
    (kind : policy.kind = .restricted) :
    (∀ entries, entries.Perm policy.entries → ∀ path,
      inferPathConvention path = inferPathConvention context.cwd → lexicalDepth path ≠ none →
      (canWritePath windowsJoin { policy with entries := entries } path context = true ↔
        MayWrite windowsJoin { policy with entries := entries } context path) ∧
      canWritePath windowsJoin { policy with entries := entries } path context =
        canWritePath windowsJoin policy path context) ↔
      hasFullDiskWriteAccessWithContext policy context = true ∨
        NestedRootsFirst windowsJoin policy context := by
  constructor
  · intro always
    cases full : hasFullDiskWriteAccessWithContext policy context with
    | true => exact .inl rfl
    | false =>
      refine .inr (nested_of_every_order kind full ?_)
      intro entries perm path same deep
      exact (always entries perm path same deep).1.mp
  · intro condition
    have mayWrite : ∀ entries, entries.Perm policy.entries → ∀ path,
        canWritePath windowsJoin { policy with entries := entries } path context = true →
          MayWrite windowsJoin { policy with entries := entries } context path := by
      intro entries perm path allowed
      cases condition with
      | inl full =>
        exact ⟨access_of_canWritePath allowed, .inl (by rw [fullDisk_of_perm perm, full])⟩
      | inr nested =>
        obtain ⟨cwdPlace, _, cwd_at, _, clear⟩ :=
          clear_of_writable (access_of_canWritePath allowed) kind
        have original : Clear (resolvedEntries windowsJoin policy context) := fun entry member =>
          clear entry ((mem_resolved_of_perm perm entry).mpr member)
        exact mayWrite_of_canWritePath kind
          (exposedFirst_of_nested kind cwd_at original nested perm) allowed
    have agree : ∀ entries, entries.Perm policy.entries → ∀ path,
        (canWritePath windowsJoin { policy with entries := entries } path context = true ↔
          MayWrite windowsJoin { policy with entries := entries } context path) :=
      fun entries perm path => ⟨mayWrite entries perm path, canWritePath_of_mayWrite kind⟩
    intro entries perm path _ _
    refine ⟨agree entries perm path, Bool.eq_iff_iff.mpr ?_⟩
    rw [agree entries perm path, mayWrite_of_perm kind perm]
    exact (agree policy.entries (Perm.refl _) path).symm

end

def posixPath (segments : List String) : PathUri := .url none segments

def grant (segments : List String) : FileSystemSandboxEntry :=
  { path := .path (posixPath segments), access := .write }

def siblings : FileSystemSandboxPolicy := restricted [grant ["w"], grant ["w", "lib"]]

def inWork : FileSystemSandboxPolicyContext :=
  { cwd := posixPath ["w"], workspaceRoots := [posixPath ["w"]], temporaryDirectories := none }

def noJoin (_ : PathUri) (_ : String) : Option PathUri := none

theorem siblings_apart : NestedRootsFirst noJoin siblings inWork := by
  have outside : ∀ root ∈ writeRoots (resolvedEntries noJoin siblings inWork),
      ∀ entry ∈ siblings.entries, ∀ outer ∈ entryPaths noJoin inWork entry,
      ∀ name ∈ protectedMetadataPathNames,
        (joinDescendant outer name).all fun outerPath => !startsWith root outerPath := by
    decide
  intro root rootMember name _ protectedPath _ _ _ entry member _ before outer after whole outerName
    listed outerPath joined starts
  have outerMember : outer ∈ entryPaths noJoin inWork entry := by
    rw [whole]
    simp
  have apart := outside root rootMember entry member outer outerMember outerName listed
  rw [joined, Option.all_some, starts] at apart
  cases apart

theorem siblings_protected_in_every_order :
    siblings.kind = .restricted ∧ ∀ entries, entries.Perm siblings.entries → ∀ path,
        inferPathConvention path = inferPathConvention inWork.cwd → lexicalDepth path ≠ none →
        (canWritePath noJoin { siblings with entries := entries } path inWork = true ↔
          MayWrite noJoin { siblings with entries := entries } inWork path) ∧
        canWritePath noJoin { siblings with entries := entries } path inWork =
          canWritePath noJoin siblings path inWork :=
  ⟨rfl, (metadata_protected_in_every_order_iff noJoin siblings inWork rfl).mpr
    (.inr siblings_apart)⟩

def nestedInMetadata : FileSystemSandboxPolicy := restricted [grant ["w"], grant ["w", ".git"]]

theorem nested_metadata_unprotected :
    canWritePath noJoin nestedInMetadata (posixPath ["w", ".git", ".git"]) inWork = true ∧
      ¬ MayWrite noJoin nestedInMetadata inWork (posixPath ["w", ".git", ".git"]) ∧
      canWritePath noJoin { nestedInMetadata with entries := nestedInMetadata.entries.reverse }
        (posixPath ["w", ".git", ".git"]) inWork = false := by
  refine ⟨by decide, ?_, by decide⟩
  rintro ⟨_, full | overridden⟩
  · exact absurd full (by decide)
  · obtain ⟨other, member, covers, inside⟩ := overridden (posixPath ["w", ".git"]) (by decide) ".git"
      (by decide) (posixPath ["w", ".git", ".git"]) (by decide) (by decide)
    have none_inside : ∀ other ∈ writeRoots (resolvedEntries noJoin nestedInMetadata inWork),
        startsWith other (posixPath ["w", ".git", ".git"]) = false := by
      decide
    rw [none_inside other member] at inside
    cases inside

end OpenInterpreter.MetadataDenial
