import OpenInterpreter.ProjectRoots

/-! Prepared read denials: `prepare_deny_read_matcher` and `matches_prepared_read_deny` in
`protocol/src/permissions.rs`. -/

namespace OpenInterpreter.ReadDenyMatcher

open ExecutorPath SandboxAccess ProjectRoots PolicyPlaces List

structure GlobHost extends NativePaths where
  userHomeDir : Option PathUri
  isAbsoluteText : PathConvention → String → Bool
  globDirectoryError : PathConvention → PathUri → String
  compileGlob : Bool → Bool → String → Except String (String → Bool)

structure PreparedReadDenyMatcher where
  deniedRoots : List PathUri
  denyReadMatchers : List (String → Bool)
  invalidPattern : Bool

inductive InvalidDenyReadGlobBehavior where
  | failClosed
  | returnError
  deriving DecidableEq

section

variable (host : GlobHost) (context : FileSystemSandboxPolicyContext)

def withSlashes (text : String) : String :=
  String.ofList (text.toList.map fun char => if char = '\\' then '/' else char)

def buildGlobMatcher (pattern : String) (convention : PathConvention) :
    Except String (String → Bool) :=
  match convention with
  | .windows => host.compileGlob false true (withSlashes pattern)
  | .posix => host.compileGlob true false pattern

def homePattern (isWindows : Bool) (pattern : String) : Option (List Char) :=
  match pattern.toList with
  | '~' :: '/' :: suffix => some (suffix.dropWhile fun char => char = '/' ∨ isWindows ∧ char = '\\')
  | '~' :: '\\' :: suffix =>
    if isWindows then some (suffix.dropWhile fun char => char = '/' ∨ char = '\\') else none
  | _ => none

def globBelow (root : PathUri) (pattern : String) (convention : PathConvention) :
    Except String String :=
  if !host.isAbsoluteText convention pattern ∧
      !validateGlobDirectory host.toNativePaths root convention then
    .error (host.globDirectoryError convention root)
  else
    match join host.windowsJoin root pattern with
    | some path => .ok (host.nativePathString path)
    | none => .error ("unable to resolve deny-read glob pattern `" ++ pattern ++ "`")

def denyReadGlob (pattern : String) : Except String String :=
  let isWindows : Bool := inferPathConvention context.cwd = some .windows
  let convention : PathConvention := if isWindows then .windows else .posix
  match homePattern isWindows pattern with
  | none => globBelow host context.cwd pattern convention
  | some suffix =>
    match host.userHomeDir with
    | some home => globBelow host home (String.ofList suffix) convention
    | none => .error
        ("unable to resolve deny-read glob pattern `" ++ pattern ++ "` without executor home")

variable (policy : FileSystemSandboxPolicy)

def deniedPatterns : List String :=
  policy.entries.filterMap fun entry =>
    if entry.access = .deny then
      match entry.path with
      | .globPattern pattern => some pattern
      | _ => none
    else none

def denyReadGlobs : Except String (List String) :=
  (deniedPatterns policy).mapM (denyReadGlob host context)

def buildMatchers (behavior : InvalidDenyReadGlobBehavior) (convention : PathConvention) :
    List String → Except String (List (String → Bool) × Bool)
  | [] => .ok ([], false)
  | pattern :: rest =>
    match buildGlobMatcher host pattern convention with
    | .ok matcher =>
      (buildMatchers behavior convention rest).map fun built => (matcher :: built.1, built.2)
    | .error error =>
      match behavior with
      | .failClosed => (buildMatchers behavior convention rest).map fun built => (built.1, true)
      | .returnError =>
        .error ("invalid deny-read glob pattern `" ++ pattern ++ "`: " ++ error)

def isFileSystemRoot (root : PathUri) : Bool :=
  (fileSystemRoot context).any fun top => startsWith root top ∧ startsWith top root

def deniedRootsOf : List PathUri :=
  ((resolvedEntries host.windowsJoin policy context).filter fun entry =>
    entry.2 = .deny ∧ !isFileSystemRoot context entry.1).map Prod.fst

def prepareDenyReadMatcher (behavior : InvalidDenyReadGlobBehavior) :
    Except String PreparedReadDenyMatcher :=
  let deniedRoots := deniedRootsOf host context policy
  match inferPathConvention context.cwd with
  | none => .ok ⟨deniedRoots, [], true⟩
  | some convention =>
    match denyReadGlobs host context policy with
    | .error error =>
      match behavior with
      | .failClosed => .ok ⟨deniedRoots, [], true⟩
      | .returnError => .error error
    | .ok patterns =>
      (buildMatchers host behavior convention patterns).map fun built =>
        ⟨deniedRoots, built.1, built.2⟩

def candidateText (convention : PathConvention) (path : PathUri) : String :=
  match convention, path with
  | .posix, .url _ segments =>
    String.ofList ('/' :: ['/'].intercalate (segments.map String.toList))
  | .posix, .fallback _ _ => "/"
  | .windows, _ => withSlashes (host.nativePathString path)

def matchesPreparedReadDeny (path : PathUri) (prepared : PreparedReadDenyMatcher) : Bool :=
  match inferPathConvention context.cwd with
  | none => true
  | some convention =>
    if inferPathConvention path ≠ some convention ∨ lexicalDepth path = none ∨
        lexicalDepth context.cwd = none then true
    else
      prepared.invalidPattern || prepared.deniedRoots.any (startsWith path) ||
        prepared.denyReadMatchers.any fun matcher => matcher (candidateText host convention path)

variable {host context} {policy : FileSystemSandboxPolicy}

theorem mem_deniedRootsOf {root : PathUri} :
    root ∈ deniedRootsOf host context policy ↔
      (root, .deny) ∈ resolvedEntries host.windowsJoin policy context ∧
        isFileSystemRoot context root = false := by
  simp only [deniedRootsOf, mem_map, mem_filter, decide_eq_true_eq, Bool.not_eq_true']
  constructor
  · rintro ⟨⟨other, access⟩, ⟨member, denies, proper⟩, rfl⟩
    exact ⟨denies ▸ member, proper⟩
  · rintro ⟨member, proper⟩
    exact ⟨(root, .deny), ⟨member, rfl, proper⟩, rfl⟩

theorem prepareDenyReadMatcher_of_literal (literal : deniedPatterns policy = [])
    (behavior : InvalidDenyReadGlobBehavior) :
    prepareDenyReadMatcher host context policy behavior =
      .ok ⟨deniedRootsOf host context policy, [], (inferPathConvention context.cwd).isNone⟩ := by
  have patterns : denyReadGlobs host context policy = .ok [] := by
    rw [denyReadGlobs, literal]
    rfl
  rw [prepareDenyReadMatcher]
  cases inferPathConvention context.cwd with
  | none => rfl
  | some convention =>
    simp only [patterns]
    rfl

theorem matches_of_deniedRoot {prepared : PreparedReadDenyMatcher} {path root : PathUri}
    (member : root ∈ prepared.deniedRoots) (inside : startsWith path root = true) :
    matchesPreparedReadDeny host context path prepared = true := by
  rw [matchesPreparedReadDeny]
  split
  · rfl
  · split
    · rfl
    · have denied : prepared.deniedRoots.any (startsWith path) = true :=
        any_eq_true.mpr ⟨root, member, inside⟩
      rw [denied, Bool.or_true, Bool.true_or]

theorem matches_roots_of_located {cwdPlace place : List String} {path : PathUri}
    (cwd_at : placeOf context.cwd = some cwdPlace)
    (path_at : Located (inferPathConvention context.cwd) path place) (roots : List PathUri) :
    matchesPreparedReadDeny host context path
        ⟨roots, [], (inferPathConvention context.cwd).isNone⟩ =
      roots.any (startsWith path) := by
  obtain ⟨name, segments, cwd, _, _⟩ := exists_of_placeOf cwd_at
  have convention : inferPathConvention context.cwd = some (urlConvention name segments) := by
    rw [cwd]
    rfl
  have ordinary : ¬ (inferPathConvention path ≠ some (urlConvention name segments) ∨
      lexicalDepth path = none ∨ lexicalDepth context.cwd = none) := by
    rw [path_at.same, convention, lexicalDepth_eq, lexicalDepth_eq, path_at.found, cwd_at]
    simp
  simp [matchesPreparedReadDeny, convention, if_neg ordinary]

end

end OpenInterpreter.ReadDenyMatcher
