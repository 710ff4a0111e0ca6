import OpenInterpreter.LocalPolicy

/-! Access and metadata protection on a POSIX host, by the deepest entry over a path. -/

namespace OpenInterpreter.LocalAccess

open ExecutorPath SandboxAccess PrefixRules ReservedNames PolicyPlaces LocalPaths LocalPolicy List
open HostPath

variable (entries : List ResolvedFileSystemEntry)

structure Live (root : HostPath) : Prop where
  granted : (root, .write) ∈ entries
  undenied : (root, .deny) ∉ entries
  undriven : root.driven = false

structure Deepest (path root : HostPath) : Prop where
  listed : ∃ access, (root, access) ∈ entries
  covers : path.startsWith root = true
  deepest : ∀ entry ∈ entries, path.startsWith entry.1 = true → root.startsWith entry.1 = true

def foremost (root : HostPath) : Bool :=
  comesFirst protectedMetadataPathNames root.components
    ((entries.filter fun entry => entry.2.canWrite).map fun entry => entry.1.components)

def reserved (root path : HostPath) : Bool :=
  protectedMetadataPathNames.any fun name => path.startsWith (joinName root name)

theorem protected_name_component : ∀ name ∈ protectedMetadataPathNames,
    splitSegments name.toList = [name] ∧ PlainComponent name := by
  decide

theorem joinName_components (root : HostPath) {name : String}
    (member : name ∈ protectedMetadataPathNames) :
    (joinName root name).components = root.components ++ [name] := by
  obtain ⟨whole, plain⟩ := protected_name_component name member
  rw [joinName, HostPath.normalize, whole]
  exact push_of_plain root plain

variable {root : HostPath}

theorem reserved_iff {path : HostPath} :
    reserved root path = true ↔
      ∃ name ∈ protectedMetadataPathNames, root.components ++ [name] <+: path.components := by
  rw [reserved, any_eq_true]
  constructor
  · rintro ⟨name, member, below⟩
    exact ⟨name, member, joinName_components root member ▸ startsWith_iff.mp below⟩
  · rintro ⟨name, member, below⟩
    exact ⟨name, member, startsWith_iff.mpr (joinName_components root member ▸ below)⟩

variable {place : List String} {entries : List ResolvedFileSystemEntry}

section

variable {path : HostPath}

theorem hostPlace_eq_some :
    hostPlace root = some place ↔ root.driven = false ∧ "" :: root.components = place := by
  rw [hostPlace]
  cases root.driven <;> simp

variable {access : FileSystemAccessMode}

theorem mem_hostRules :
    (place, access) ∈ hostRules entries ↔
      ∃ root, (root, access) ∈ entries ∧ root.driven = false ∧ "" :: root.components = place := by
  rw [hostRules, mem_filterMap]
  constructor
  · rintro ⟨entry, member, mapped⟩
    obtain ⟨other, placed, equal⟩ := Option.map_eq_some_iff.mp mapped
    cases equal
    exact ⟨entry.1, member, hostPlace_eq_some.mp placed⟩
  · rintro ⟨root, member, placed⟩
    exact ⟨(root, access), member, by rw [hostPlace_eq_some.mpr placed]; rfl⟩

structure Strongest (entries : List ResolvedFileSystemEntry) (root : HostPath)
    (access : FileSystemAccessMode) : Prop where
  listed : (root, access) ∈ entries
  greatest : ∀ other, (root, other) ∈ entries → other ≤ access

theorem decides_iff (undriven : path.driven = false) :
    (∃ place, Decides (hostRules entries) ("" :: path.components) place access) ↔
      ∃ root, Deepest entries path root ∧ Strongest entries root access := by
  constructor
  · rintro ⟨place, decides⟩
    obtain ⟨root, member, rootUndriven, rfl⟩ := mem_hostRules.mp decides.rule
    refine ⟨root, ⟨⟨access, member⟩, ?_, ?_⟩, member, ?_⟩
    · exact startsWith_iff.mpr (cons_prefix_cons.mp decides.covers).2
    · rintro ⟨other, otherAccess⟩ listed below
      have rule := mem_hostRules.mpr
        ⟨other, listed, undriven_of_startsWith below undriven, rfl⟩
      have above := decides.covers_place rule
        (cons_prefix_cons.mpr ⟨rfl, startsWith_iff.mp below⟩)
      exact startsWith_iff.mpr (cons_prefix_cons.mp above).2
    · intro other listed
      have rule := mem_hostRules.mpr ⟨root, listed, rootUndriven, rfl⟩
      exact (decides.level rule decides.covers (prefix_refl _)).2
  · rintro ⟨root, deepest, strongest⟩
    have rootUndriven := undriven_of_startsWith deepest.covers undriven
    refine ⟨"" :: root.components, mem_hostRules.mpr ⟨root, strongest.listed, rootUndriven, rfl⟩,
      cons_prefix_cons.mpr ⟨rfl, startsWith_iff.mp deepest.covers⟩, ?_⟩
    rintro ⟨place, otherAccess⟩ rule covers
    obtain ⟨other, listed, _, rfl⟩ := mem_hostRules.mp rule
    have below := startsWith_iff.mpr (cons_prefix_cons.mp covers).2
    have above := startsWith_iff.mp (deepest.deepest _ listed below)
    cases Nat.lt_or_ge other.components.length root.components.length with
    | inl shorter => exact .inl (Nat.succ_lt_succ shorter)
    | inr longer =>
      have same : other = root :=
        HostPath.ext (above.eq_of_length (Nat.le_antisymm above.length_le longer))
      cases same
      exact .inr ⟨rfl, strongest.greatest otherAccess listed⟩

theorem Deepest.unique {other : HostPath} (first : Deepest entries path root)
    (second : Deepest entries path other) : root = other := by
  obtain ⟨access, listed⟩ := first.listed
  obtain ⟨otherAccess, otherListed⟩ := second.listed
  exact startsWith_antisymm (first.deepest _ otherListed second.covers)
    (second.deepest _ listed first.covers)

theorem Live.strongest (live : Live entries root) : Strongest entries root .write where
  listed := live.granted
  greatest other listed := by
    cases other with
    | read | write => decide
    | deny => exact absurd listed live.undenied

theorem live_of_strongest (strongest : Strongest entries root .write)
    (undriven : root.driven = false) : Live entries root where
  granted := strongest.listed
  undenied denied := absurd (strongest.greatest .deny denied) (by decide)
  undriven := undriven

end

section

def hostWritePlaces (entries : List ResolvedFileSystemEntry) : List (List String) :=
  ((hostRules entries).filter fun rule => rule.2.canWrite).map Prod.fst

theorem mem_hostWritePlaces :
    place ∈ hostWritePlaces entries ↔
      ∃ root, (root, .write) ∈ entries ∧ root.driven = false ∧ "" :: root.components = place := by
  rw [← mem_hostRules]
  simp [hostWritePlaces, FileSystemAccessMode.canWrite]

theorem comesFirst_hostWritePlaces (undriven : root.driven = false) :
    comesFirst protectedMetadataPathNames ("" :: root.components) (hostWritePlaces entries) =
      foremost entries root := by
  rw [hostWritePlaces, foremost, hostRules]
  induction entries with
  | nil => rfl
  | cons entry rest ih =>
    obtain ⟨other, access⟩ := entry
    cases writes : access.canWrite with
    | false => cases placed : hostPlace other <;> simpa [placed, writes] using ih
    | true =>
      cases driven : other.driven with
      | false =>
        have placed := hostPlace_eq_some.mpr ⟨driven, rfl⟩
        simp [placed, writes, comesFirst, ih]
      | true =>
        have placed : hostPlace other = none := by rw [hostPlace, driven, if_pos rfl]
        have apart : ¬ other.components <+: root.components := by
          intro above
          have ordinary := undriven_of_startsWith
            (startsWith_iff.mpr above) undriven
          rw [driven] at ordinary
          cases ordinary
        have differs : other.components ≠ root.components := fun equal =>
          apart (equal ▸ prefix_refl _)
        have outside : ∀ name, ¬ other.components ++ [name] <+: root.components :=
          fun name inside => apart ((prefix_append _ _).trans inside)
        simp [placed, writes, comesFirst, ih, differs, outside]

end

section

variable {host : Host} {cwd : HostPath} {windowsJoin : PathUri → String → Option PathUri}
  {policy : FileSystemSandboxPolicy} {path : HostPath}

section

variable (kind : policy.kind = .restricted) (driven : path.driven = true ∨ cwd.driven = true)
include kind driven

theorem access_driven :
    resolveAccess windowsJoin policy (fromAbsPath path) (localContext host cwd) = .deny := by
  by_contra granted
  obtain ⟨cwdPlace, place, cwd_at, path_at, _⟩ := clear_of_granted kind granted
  have pathPlaced := path_at.found
  rw [placeOf_fromAbsPath] at pathPlaced
  rw [localContext, placeOf_fromAbsPath] at cwd_at
  have ordinary := (hostPlace_eq_some.mp pathPlaced).1
  have ordinaryCwd := (hostPlace_eq_some.mp cwd_at).1
  rw [ordinary, ordinaryCwd] at driven
  simp at driven

theorem canRead_driven : canReadLocalPathWithCwd host cwd windowsJoin policy path = false := by
  rw [canReadLocalPathWithCwd, access_driven kind driven]
  rfl

theorem canWrite_driven : canWriteLocalPathWithCwd host cwd windowsJoin policy path = false := by
  rw [canWriteLocalPathWithCwd, canWritePath, access_driven kind driven]
  rfl

end

theorem writePlaces_local (undrivenCwd : cwd.driven = false) (posix : PosixPolicy policy) :
    writePlaces windowsJoin policy (localContext host cwd) =
      hostWritePlaces (resolvedEntriesWithCwd host cwd policy) := by
  rw [writePlaces_eq, rulesOf_local undrivenCwd posix, hostWritePlaces]

theorem placeOf_undriven (undriven : path.driven = false) :
    placeOf (fromAbsPath path) = some ("" :: path.components) := by
  rw [placeOf_fromAbsPath]
  exact hostPlace_eq_some.mpr ⟨undriven, rfl⟩

theorem located_local (undriven : path.driven = false) :
    Located (inferPathConvention (localContext host cwd).cwd) (fromAbsPath path)
      ("" :: path.components) where
  same := by
    rw [localContext, inferPathConvention_fromAbsPath, inferPathConvention_fromAbsPath]
  found := placeOf_undriven undriven

theorem blocked_local (deepest : Deepest entries path root) (live : Live entries root) :
    blocked protectedMetadataPathNames (hostWritePlaces entries) ("" :: path.components) = true ↔
      foremost entries root = true ∧ reserved root path = true := by
  have present : "" :: root.components ∈ hostWritePlaces entries :=
    mem_hostWritePlaces.mpr ⟨root, live.granted, live.undriven, rfl⟩
  have above : "" :: root.components <+: "" :: path.components :=
    cons_prefix_cons.mpr ⟨rfl, startsWith_iff.mp deepest.covers⟩
  have top : ∀ other ∈ hostWritePlaces entries, other <+: "" :: path.components →
      other <+: "" :: root.components := by
    intro place member covers
    obtain ⟨other, listed, _, rfl⟩ := mem_hostWritePlaces.mp member
    have below := startsWith_iff.mpr (cons_prefix_cons.mp covers).2
    exact cons_prefix_cons.mpr
      ⟨rfl, startsWith_iff.mp (deepest.deepest _ listed below)⟩
  rw [blocked_iff_own_first present above top, reserved_iff,
    ← comesFirst_hostWritePlaces live.undriven]
  constructor
  · rintro ⟨name, member, below, found⟩
    rw [firstGuard_below below top] at found
    exact ⟨(firstGuard_own_iff present member).mp found, name, member,
      (cons_prefix_cons.mp below).2⟩
  · rintro ⟨first, name, member, below⟩
    have inside : ("" :: root.components) ++ [name] <+: "" :: path.components :=
      cons_prefix_cons.mpr ⟨rfl, below⟩
    refine ⟨name, member, inside, ?_⟩
    rw [firstGuard_below inside top]
    exact (firstGuard_own_iff present member).mpr first

theorem canWrite_iff (undrivenCwd : cwd.driven = false) (posix : PosixPolicy policy)
    (partially : hasFullDiskWriteAccess policy = false) (undriven : path.driven = false) :
    canWriteLocalPathWithCwd host cwd windowsJoin policy path = true ↔
      ∃ root, Deepest (resolvedEntriesWithCwd host cwd policy) path root ∧
        Live (resolvedEntriesWithCwd host cwd policy) root ∧
        ¬ (foremost (resolvedEntriesWithCwd host cwd policy) root = true ∧
          reserved root path = true) := by
  have cwd_at : placeOf (localContext host cwd).cwd = some ("" :: cwd.components) :=
    placeOf_undriven undrivenCwd
  have full : hasFullDiskWriteAccessWithContext policy (localContext host cwd) = false := by
    rw [hasFullDiskWriteAccessWithContext, localContext, inferPathConvention_fromAbsPath]
    exact partially
  rw [canWriteLocalPathWithCwd,
    canWritePath_iff posix.kind cwd_at (located_local undriven) (clear_local undrivenCwd posix),
    rulesOf_local undrivenCwd posix, writePlaces_local undrivenCwd posix, decides_iff undriven, full]
  constructor
  · rintro ⟨⟨root, deepest, strongest⟩, free⟩
    have live := live_of_strongest strongest
      (undriven_of_startsWith deepest.covers undriven)
    refine ⟨root, deepest, live, ?_⟩
    intro shut
    rw [(blocked_local deepest live).mpr shut] at free
    simp at free
  · rintro ⟨root, deepest, live, free⟩
    refine ⟨⟨root, deepest, live.strongest⟩, .inr (Bool.eq_false_iff.mpr fun shut => ?_)⟩
    exact free ((blocked_local deepest live).mp shut)

theorem exists_strongest
    (listed : ∃ access, (root, access) ∈ entries) (undenied : (root, .deny) ∉ entries) :
    ∃ access, Strongest entries root access ∧ access ≠ .deny := by
  by_cases granted : (root, .write) ∈ entries
  · refine ⟨.write, ⟨granted, ?_⟩, nofun⟩
    intro other found
    cases other with
    | read | write => decide
    | deny => exact absurd found undenied
  · obtain ⟨access, found⟩ := listed
    have reads : access = .read := by
      cases access with
      | read => rfl
      | write => exact absurd found granted
      | deny => exact absurd found undenied
    rw [reads] at found
    refine ⟨.read, ⟨found, ?_⟩, nofun⟩
    intro other present
    cases other with
    | read => decide
    | write => exact absurd present granted
    | deny => exact absurd present undenied

theorem access_local (undrivenCwd : cwd.driven = false) (posix : PosixPolicy policy)
    (undriven : path.driven = false) :
    resolveAccess windowsJoin policy (fromAbsPath path) (localContext host cwd) =
      (resolve (hostRules (resolvedEntriesWithCwd host cwd policy)) ("" :: path.components)).getD
        .deny := by
  have cwd_at : placeOf (localContext host cwd).cwd = some ("" :: cwd.components) :=
    placeOf_undriven undrivenCwd
  rw [resolveAccess_eq posix.kind cwd_at (located_local undriven) (clear_local undrivenCwd posix),
    rulesOf_local undrivenCwd posix]

theorem canRead_iff (undrivenCwd : cwd.driven = false) (posix : PosixPolicy policy)
    (undriven : path.driven = false) :
    canReadLocalPathWithCwd host cwd windowsJoin policy path = true ↔
      ∃ root, Deepest (resolvedEntriesWithCwd host cwd policy) path root ∧
        (root, .deny) ∉ resolvedEntriesWithCwd host cwd policy := by
  rw [canReadLocalPathWithCwd, access_local undrivenCwd posix undriven]
  constructor
  · intro readable
    cases found : resolve (hostRules (resolvedEntriesWithCwd host cwd policy))
        ("" :: path.components) with
    | none =>
      rw [found] at readable
      cases readable
    | some access =>
      rw [found] at readable
      obtain ⟨root, deepest, strongest⟩ := (decides_iff undriven).mp (resolve_eq_some.mp found)
      refine ⟨root, deepest, fun denied => ?_⟩
      have top := le_antisymm (strongest.greatest .deny denied)
        (FileSystemAccessMode.le_deny access)
      rw [← top] at readable
      cases readable
  · rintro ⟨root, deepest, undenied⟩
    obtain ⟨access, strongest, reads⟩ := exists_strongest deepest.listed undenied
    rw [resolve_eq_some.mpr ((decides_iff undriven).mpr ⟨root, deepest, strongest⟩)]
    simpa [FileSystemAccessMode.canRead] using reads

end

end OpenInterpreter.LocalAccess
