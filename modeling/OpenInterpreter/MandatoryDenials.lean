import OpenInterpreter.ReadDenyMatcher

/-! Mandatory read denials: `protocol/src/permissions/deny_read_validator.rs`. -/

namespace OpenInterpreter.MandatoryDenials

open ExecutorPath SandboxAccess PrefixRules PolicyPlaces ReadDenyMatcher List Option

structure DenyReadValidator where
  requiredEntries : List FileSystemSandboxEntry
  matcher : Option PreparedReadDenyMatcher

inductive DenyReadViolation where
  | missingRequiredDeny
  | readablePath (path : PathUri)
  deriving DecidableEq

def hasContextReadDenials (policy : FileSystemSandboxPolicy)
    (context : FileSystemSandboxPolicyContext) : Bool :=
  policy.kind = .restricted ∧ policy.entries.any fun entry =>
      entry.access = .deny ∧
        ¬ (entry.path = .special .slashTmp ∧ inferPathConvention context.cwd ≠ some .posix)

namespace DenyReadValidator

variable (host : GlobHost)

def new (required : FileSystemSandboxPolicy) (context : FileSystemSandboxPolicyContext) :
    Except String DenyReadValidator :=
  if hasContextReadDenials required context then
    (prepareDenyReadMatcher host context required .returnError).map fun matcher =>
      ⟨required.entries, some matcher⟩
  else .ok ⟨required.entries, none⟩

def violatingPath (validator : DenyReadValidator) (context : FileSystemSandboxPolicyContext)
    (entry : FileSystemSandboxEntry) : Option PathUri :=
  match entry.path with
  | .path path =>
    if entry.access.canRead ∧ inferPathConvention path = inferPathConvention context.cwd ∧
        validator.matcher.any (matchesPreparedReadDeny host context path) then some path
    else none
  | _ => none

def validate (validator : DenyReadValidator) (selected : FileSystemSandboxPolicy)
    (context : FileSystemSandboxPolicyContext) : Except DenyReadViolation Unit :=
  match selected.entries.findSome? (violatingPath host validator context) with
  | some path => .error (.readablePath path)
  | none =>
    if validator.requiredEntries.any fun entry =>
        !selected.entries.any (sameEntry · entry) then .error .missingRequiredDeny
    else .ok ()

end DenyReadValidator

def LiteralDenial (context : FileSystemSandboxPolicyContext) (entry : FileSystemSandboxEntry) :
    Prop :=
  entry.access = .deny ∧ ∃ root, entry.path = .path root ∧ isFileSystemRoot context root = false

def deniedPaths (denied : List FileSystemSandboxEntry) : List PathUri :=
  denied.filterMap fun entry =>
    match entry.path with
    | .path root => some root
    | _ => none

/-- A readable entry that names the path by a symbol, such as a workspace root. -/
def SymbolicGrant (windowsJoin : PathUri → String → Option PathUri)
    (policy : FileSystemSandboxPolicy) (context : FileSystemSandboxPolicyContext)
    (path : PathUri) : Prop :=
  ∃ entry ∈ policy.entries, entry.access.canRead = true ∧ (∀ root, entry.path ≠ .path root) ∧
    path ∈ entryPaths windowsJoin context entry

variable {context : FileSystemSandboxPolicyContext} {denied : List FileSystemSandboxEntry}
  {policy : FileSystemSandboxPolicy}

section

variable {host : GlobHost}
  {root : PathUri}

theorem mem_deniedPaths :
    root ∈ deniedPaths denied ↔ ∃ entry ∈ denied, entry.path = .path root := by
  rw [deniedPaths, mem_filterMap]
  apply exists_congr
  intro entry
  apply and_congr_right
  cases entry.path <;> simp

section

variable (literal : ∀ entry ∈ denied, LiteralDenial context entry)
include literal

theorem literal_of_denied (member : root ∈ deniedPaths denied) :
    ∃ entry ∈ denied, entry.path = .path root ∧ entry.access = .deny ∧
      isFileSystemRoot context root = false := by
  obtain ⟨entry, listed, named⟩ := mem_deniedPaths.mp member
  obtain ⟨denies, other, same, proper⟩ := literal entry listed
  cases named.symm.trans same
  exact ⟨entry, listed, named, denies, proper⟩

theorem deniedPatterns_of_literal : deniedPatterns (restricted denied) = [] := by
  apply filterMap_eq_nil_iff.mpr
  intro entry member
  obtain ⟨denies, root, named, _⟩ := literal entry member
  rw [if_pos denies, named]

def literalValidator (host : GlobHost) (denied : List FileSystemSandboxEntry)
    (context : FileSystemSandboxPolicyContext) : DenyReadValidator where
  requiredEntries := denied
  matcher :=
    if hasContextReadDenials (restricted denied) context then
      some ⟨deniedRootsOf host context (restricted denied), [],
        (inferPathConvention context.cwd).isNone⟩
    else none

theorem new_of_literal :
    DenyReadValidator.new host (restricted denied) context =
      .ok (literalValidator host denied context) := by
  rw [DenyReadValidator.new, literalValidator]
  split
  · rw [prepareDenyReadMatcher_of_literal (deniedPatterns_of_literal literal)]
    rfl
  · rfl

theorem matcher_of_denied (member : root ∈ deniedPaths denied)
    (same : inferPathConvention root = inferPathConvention context.cwd) :
    ∃ prepared, (literalValidator host denied context).matcher = some prepared ∧
      root ∈ prepared.deniedRoots := by
  obtain ⟨entry, listed, named, denies, proper⟩ := literal_of_denied literal member
  have active : hasContextReadDenials (restricted denied) context = true := by
    apply decide_eq_true
    refine ⟨rfl, any_eq_true.mpr ⟨entry, listed, decide_eq_true ⟨denies, ?_⟩⟩⟩
    rw [named]
    nofun
  refine ⟨_, if_pos active, mem_deniedRootsOf.mpr ⟨?_, proper⟩⟩
  exact mem_resolvedEntries_iff.mpr
    ⟨entry, listed, (mem_entryPaths_of_path named).mpr ⟨rfl, same⟩, denies⟩

omit literal in
theorem validate_ok {validator : DenyReadValidator}
    (accepted : validator.validate host policy context = .ok ()) :
    (∀ entry ∈ policy.entries, validator.violatingPath host context entry = none) ∧
      ∀ entry ∈ validator.requiredEntries, ∃ present ∈ policy.entries,
        sameEntry present entry = true := by
  rw [DenyReadValidator.validate] at accepted
  split at accepted
  · cases accepted
  · rename_i unviolated
    split at accepted
    · cases accepted
    · rename_i present
      refine ⟨findSome?_eq_none_iff.mp unviolated, ?_⟩
      intro entry member
      by_contra absent
      apply present
      refine any_eq_true.mpr ⟨entry, member, ?_⟩
      simpa using absent

variable (accepted : (literalValidator host denied context).validate host policy context = .ok ())
  (member : root ∈ deniedPaths denied)
include accepted member

theorem denial_of_accepted (same : inferPathConvention root = inferPathConvention context.cwd) :
    ∃ present, (present, .deny) ∈ resolvedEntries host.windowsJoin policy context ∧
      sameUri root present = true := by
  obtain ⟨entry, listed, named, denies, _⟩ := literal_of_denied literal member
  obtain ⟨present, found, equal⟩ := (validate_ok accepted).2 entry listed
  obtain ⟨paths, accesses, _⟩ := of_decide_eq_true equal
  rw [named] at paths
  cases shape : present.path with
  | globPattern | special => simp [shape, samePath] at paths
  | path uri =>
    rw [shape] at paths
    have convention := (inferPathConvention_of_sameUri paths).trans same
    exact ⟨uri, mem_resolvedEntries_iff.mpr ⟨present, found,
      (mem_entryPaths_of_path shape).mpr ⟨rfl, convention⟩, accesses.trans denies⟩,
      (sameUri_comm root uri).trans paths⟩

theorem symbolic_of_accepted {path : PathUri} {access : FileSystemAccessMode}
    (granted : (path, access) ∈ resolvedEntries host.windowsJoin policy context)
    (readable : access ≠ .deny) (inside : startsWith path root = true) :
    SymbolicGrant host.windowsJoin policy context path := by
  have convention := same_convention_of_resolved granted
  obtain ⟨entry, listed, resolved, rfl⟩ := mem_resolvedEntries_iff.mp granted
  refine ⟨entry, listed, decide_eq_true readable, ?_, resolved⟩
  intro uri named
  obtain ⟨rfl, _⟩ := (mem_entryPaths_of_path named).mp resolved
  have prepares : ∃ prepared, (literalValidator host denied context).matcher = some prepared ∧
      root ∈ prepared.deniedRoots :=
    matcher_of_denied literal member
      ((inferPathConvention_of_startsWith inside).symm.trans convention)
  obtain ⟨prepared, built, matched⟩ := prepares
  have clean := (validate_ok accepted).1 entry listed
  have violates : entry.access.canRead = true ∧
      inferPathConvention path = inferPathConvention context.cwd ∧
      (literalValidator host denied context).matcher.any
        (matchesPreparedReadDeny host context path) = true := by
    refine ⟨decide_eq_true readable, convention, ?_⟩
    rw [built]
    exact matches_of_deniedRoot matched inside
  rw [DenyReadValidator.violatingPath, named] at clean
  simp [violates] at clean

end

end

def DeniedThere (windowsJoin : PathUri → String → Option PathUri)
    (policy : FileSystemSandboxPolicy) (context : FileSystemSandboxPolicyContext)
    (path : PathUri) : Prop :=
  ∃ present, (present, .deny) ∈ resolvedEntries windowsJoin policy context ∧
    sameUri path present = true

section

variable {host : GlobHost}
  {root : PathUri}
  {cwdPlace : List String} (literal : ∀ entry ∈ denied, LiteralDenial context entry)
  (kind : policy.kind = .restricted)
  (accepted : (literalValidator host denied context).validate host policy context = .ok ())
include literal kind accepted

theorem granted_symbol_of_granted
    (member : root ∈ deniedPaths denied) {path : PathUri} (inside : startsWith path root = true)
    (granted : resolveAccess host.windowsJoin policy path context ≠ .deny) :
    lexicalDepth context.cwd ≠ none ∧ Clear (resolvedEntries host.windowsJoin policy context) ∧
      ∃ symbol, SymbolicGrant host.windowsJoin policy context symbol ∧
        startsWith symbol root = true ∧
        ¬ DeniedThere host.windowsJoin policy context symbol := by
  obtain ⟨cwdPlace, place, cwd_at, path_at, clear⟩ := clear_of_granted kind granted
  have deep : lexicalDepth context.cwd ≠ none := by
    rw [lexicalDepth_eq, cwd_at]
    nofun
  refine ⟨deep, clear, ?_⟩
  obtain ⟨rootPlace, root_at⟩ := path_at.exists_of_startsWith inside
  have below : rootPlace <+: place := (path_at.startsWith_iff root_at).mp inside
  obtain ⟨present, denies, equal⟩ := denial_of_accepted literal accepted member root_at.same
  have present_at := root_at.of_sameUri (same_convention_of_resolved denies) equal
  have rule : (rootPlace, .deny) ∈ rulesOf host.windowsJoin policy context :=
    mem_placeRules.mpr ⟨present, denies, present_at.found⟩
  obtain ⟨grantPlace, value, decides⟩ := exists_decides rule below
  have access : resolveAccess host.windowsJoin policy path context = value := by
    rw [resolveAccess_eq kind cwd_at path_at clear, resolve_eq_some.mpr ⟨grantPlace, decides⟩]
    rfl
  obtain ⟨symbol, resolved, placed⟩ := mem_placeRules.mp decides.rule
  have symbol_at := located_of_resolved resolved placed
  have within : startsWith symbol root = true :=
    (symbol_at.startsWith_iff root_at).mpr (decides.covers_place rule below)
  refine ⟨symbol, symbolic_of_accepted literal accepted member resolved (access ▸ granted) within,
    within, ?_⟩
  -- A denial at the symbol's own place would decide the path.
  rintro ⟨other, denied_there, same⟩
  have other_at := symbol_at.of_sameUri (same_convention_of_resolved denied_there) same
  have otherRule : (grantPlace, .deny) ∈ rulesOf host.windowsJoin policy context :=
    mem_placeRules.mpr ⟨other, denied_there, other_at.found⟩
  apply granted
  rw [access]
  exact le_antisymm value.le_deny (decides.level otherRule decides.covers (prefix_refl _)).2

theorem deniedThere_of_denied (deep : lexicalDepth context.cwd ≠ none)
    (clear : Clear (resolvedEntries host.windowsJoin policy context))
    (member : root ∈ deniedPaths denied) {symbol : PathUri}
    (symbolic : SymbolicGrant host.windowsJoin policy context symbol)
    (inside : startsWith symbol root = true)
    (refused : resolveAccess host.windowsJoin policy symbol context = .deny) :
    DeniedThere host.windowsJoin policy context symbol := by
  obtain ⟨entry, listed, _, _, named⟩ := symbolic
  have resolved : (symbol, entry.access) ∈ resolvedEntries host.windowsJoin policy context :=
    mem_resolvedEntries_iff.mpr ⟨entry, listed, named, rfl⟩
  have convention := same_convention_of_resolved resolved
  cases placed : placeOf symbol with
  | none =>
    rw [eq_of_startsWith_placeless placed inside] at convention ⊢
    exact denial_of_accepted literal accepted member convention
  | some place =>
    have symbol_at : Located (inferPathConvention context.cwd) symbol place := ⟨convention, placed⟩
    have rule : (place, entry.access) ∈ rulesOf host.windowsJoin policy context :=
      mem_placeRules.mpr ⟨symbol, resolved, placed⟩
    obtain ⟨decider, value, decides⟩ := exists_decides rule (prefix_refl place)
    have there : decider = place := by
      apply decides.covers.eq_of_length_le
      exact (decides.covers_place rule (prefix_refl place)).length_le
    rw [lexicalDepth_eq, ne_eq, map_eq_none_iff] at deep
    obtain ⟨cwdPlace, cwd_at⟩ := ne_none_iff_exists'.mp deep
    rw [resolveAccess_eq kind cwd_at symbol_at clear, resolve_eq_some.mpr ⟨decider, decides⟩]
      at refused
    obtain rfl : value = .deny := refused
    rw [there] at decides
    obtain ⟨present, denies, presentPlaced⟩ := mem_placeRules.mp decides.rule
    exact ⟨present, denies,
      (symbol_at.sameUri_iff (located_of_resolved denies presentPlaced)).mpr rfl⟩

end

/-- A validator of literal denials can be built, and a policy that it accepts denies everything at
or below them exactly if it gives no access at all or denies each symbolic grant there at the
grant's own path. -/
theorem accepted_denials_absolute_iff (host : GlobHost) (denied : List FileSystemSandboxEntry)
    (context : FileSystemSandboxPolicyContext) (policy : FileSystemSandboxPolicy)
    (literal : ∀ entry ∈ denied, LiteralDenial context entry) (kind : policy.kind = .restricted) :
    ∃ validator, DenyReadValidator.new host (restricted denied) context = .ok validator ∧
      (validator.validate host policy context = .ok () →
        ((∀ root ∈ deniedPaths denied, ∀ path, startsWith path root = true →
            resolveAccess host.windowsJoin policy path context = .deny) ↔
          lexicalDepth context.cwd = none ∨
            ¬ Clear (resolvedEntries host.windowsJoin policy context) ∨
            ∀ symbol, SymbolicGrant host.windowsJoin policy context symbol →
              ∀ root ∈ deniedPaths denied, startsWith symbol root = true →
                DeniedThere host.windowsJoin policy context symbol)) := by
  refine ⟨literalValidator host denied context, new_of_literal literal, ?_⟩
  intro accepted
  constructor
  · intro absolute
    rw [or_iff_not_imp_left]
    intro deep
    rw [or_iff_not_imp_left, not_not]
    intro clear symbol symbolic root member inside
    exact deniedThere_of_denied literal kind accepted deep clear member symbolic inside
      (absolute root member symbol inside)
  · intro closed root member path inside
    by_contra granted
    obtain ⟨deep, clear, symbol, symbolic, within, undenied⟩ :=
      granted_symbol_of_granted literal kind accepted member inside granted
    rcases closed with shallow | unclear | everywhere
    · exact deep shallow
    · exact unclear clear
    · exact undenied (everywhere symbol symbolic root member within)

def plainHost : GlobHost where
  windowsJoin _ _ := none
  windowsGlobDirectory _ := false
  nativePathString _ := ""
  userHomeDir := none
  isAbsoluteText _ _ := false
  globDirectoryError _ _ := ""
  compileGlob _ _ _ := .error ""

def teamRoot : PathUri := .url none ["team"]

def teamContext : FileSystemSandboxPolicyContext where
  cwd := teamRoot
  workspaceRoots := [teamRoot]
  temporaryDirectories := none

def payrollPath : PathUri := .url none ["team", "payroll"]

def payrollDenial : FileSystemSandboxEntry := { path := .path payrollPath, access := .deny }

def teamPolicy : FileSystemSandboxPolicy :=
  restricted [{ path := .special (.projectRoots none), access := .write }, payrollDenial]

theorem payrollDenial_literal : ∀ entry ∈ [payrollDenial], LiteralDenial teamContext entry := by
  intro entry member
  cases mem_singleton.mp member
  exact ⟨rfl, payrollPath, rfl, by decide⟩

theorem teamPolicy_symbols {symbol : PathUri}
    (symbolic : SymbolicGrant plainHost.windowsJoin teamPolicy teamContext symbol) :
    symbol = teamRoot := by
  obtain ⟨entry, member, _, unresolved, named⟩ := symbolic
  simp only [teamPolicy, restricted, mem_cons, not_mem_nil, or_false] at member
  rcases member with rfl | rfl
  · simpa [entryPaths, resolvedPaths, teamContext] using named
  · exact absurd rfl (unresolved payrollPath)

theorem team_policy_denies_payroll :
    ∃ validator, DenyReadValidator.new plainHost (restricted [payrollDenial]) teamContext =
        .ok validator ∧
      validator.validate plainHost teamPolicy teamContext = .ok () ∧
        ∀ path, startsWith path payrollPath = true →
          resolveAccess plainHost.windowsJoin teamPolicy path teamContext = .deny := by
  obtain ⟨validator, built, settled⟩ := accepted_denials_absolute_iff plainHost [payrollDenial]
    teamContext teamPolicy payrollDenial_literal rfl
  cases built.symm.trans (new_of_literal payrollDenial_literal)
  refine ⟨_, built, rfl, ?_⟩
  refine (settled rfl).mpr (.inr (.inr ?_)) payrollPath (by decide)
  intro symbol symbolic root member inside
  rw [teamPolicy_symbols symbolic, show root = payrollPath from mem_singleton.mp member]
    at inside
  exact absurd inside (by decide)

def slipsPolicy : FileSystemSandboxPolicy :=
  restricted
    [payrollDenial, { path := .special (.projectRoots (some "payroll/slips")), access := .read }]

/-- The check does not expand the symbol, and the grant below the denial is the deeper rule. -/
theorem symbolic_grant_below_denial :
    ∃ validator, DenyReadValidator.new plainHost (restricted [payrollDenial]) teamContext =
        .ok validator ∧
      validator.validate plainHost slipsPolicy teamContext = .ok () ∧
      payrollPath ∈ deniedPaths [payrollDenial] ∧
      startsWith (.url none ["team", "payroll", "slips"]) payrollPath = true ∧
      resolveAccess plainHost.windowsJoin slipsPolicy (.url none ["team", "payroll", "slips"])
        teamContext = .read :=
  ⟨_, new_of_literal payrollDenial_literal, rfl, by decide, by decide, by decide⟩

end OpenInterpreter.MandatoryDenials
