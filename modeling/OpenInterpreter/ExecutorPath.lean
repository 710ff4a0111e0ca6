import Mathlib.Data.List.Basic
import Mathlib.Data.List.Infix

/-! Executor-owned paths: `utils/path-uri/src/lib.rs`. A URI is its host and its decoded,
non-empty path segments; a native path without an ordinary URI is kept whole. -/

namespace OpenInterpreter.ExecutorPath

open List Bool

inductive PathConvention where
  | posix
  | windows
  deriving DecidableEq

/-- `PathUri`, up to spelling: URLs that differ only in a trailing slash or in what they
percent-encode are one value here and differ in the source, which compares the URL first. An
opaque fallback has the convention that its payload shows. -/
inductive PathUri where
  | url (host : Option String) (segments : List String)
  | fallback (convention : Option PathConvention) (native : String)
  deriving DecidableEq

def isWindowsDriveUriSegment (segment : String) : Bool :=
  match segment.toList with
  | [drive, ':'] => drive.isAlpha
  | _ => false

def urlConvention (host : Option String) (segments : List String) : PathConvention :=
  if host.isSome ∨ segments.head?.any isWindowsDriveUriSegment then .windows else .posix

def inferPathConvention : PathUri → Option PathConvention
  | .fallback convention _ => convention
  | .url host segments => some (urlConvention host segments)

def isOpaque : PathUri → Bool
  | .fallback _ _ => true
  | .url _ _ => false

variable (convention : PathConvention)

def holdsSeparator (segment : String) : Bool :=
  segment.toList.any fun char => char = '/' ∨ (convention = .windows ∧ char = '\\')

def containmentPathSegments (segments : List String) : Option (List String) :=
  if segments.any (holdsSeparator convention) then none else some segments

def lexicalDepth : PathUri → Option Nat
  | .fallback _ _ => none
  | .url host segments =>
    (containmentPathSegments (urlConvention host segments) segments).map List.length

def comparedSegment (segment : String) : String :=
  match convention with
  | .posix => segment
  | .windows => String.ofList (segment.toList.map Char.toLower)

def nativePathSegmentsStartWith (pathSegments baseSegments : List String)
    (convention : PathConvention) : Bool :=
  (baseSegments.map (comparedSegment convention)) <+: (pathSegments.map (comparedSegment convention))

/-- `windows_identity_path_bytes`, by segment. -/
def windowsIdentity : PathUri → Option (List String)
  | .fallback _ _ => none
  | .url host segments =>
    if urlConvention host segments ≠ .windows ∨ segments.any (holdsSeparator .windows) then none
    else some (segments.map (comparedSegment .windows))

def hostOf : PathUri → Option String
  | .url host _ => host
  | .fallback _ _ => none

def sameUri (left right : PathUri) : Bool :=
  if left = right then true
  else
    match windowsIdentity left, windowsIdentity right with
    | some leftPath, some rightPath => hostOf left = hostOf right ∧ leftPath = rightPath
    | _, _ => false

def startsWith (path base : PathUri) : Bool :=
  if sameUri path base then true
  else
    match path, base with
    | .url pathHost pathSegments, .url baseHost baseSegments =>
      let convention := urlConvention pathHost pathSegments
      if pathHost ≠ baseHost then false
      else if convention ≠ urlConvention baseHost baseSegments then false
      else
        match containmentPathSegments convention pathSegments,
          containmentPathSegments convention baseSegments with
        | some pathSegments, some baseSegments =>
          nativePathSegmentsStartWith pathSegments baseSegments convention
        | _, _ => false
    | _, _ => false

def joinDescendant (root : PathUri) (name : String) : Option PathUri :=
  match root with
  | .fallback _ _ => none
  | .url host segments =>
    let descendant := PathUri.url host (segments ++ [name])
    if startsWith descendant root then some descendant else none

/-- The last of `ancestors`: `/`, a Windows drive or a share. -/
def rootOf (host : Option String) (segments : List String) : PathUri :=
  match urlConvention host segments with
  | .windows => .url host (segments.take 1)
  | .posix => .url host []

def pushSegment (segments : List String) (component : String) : List String :=
  if component = "" ∨ component = "." then segments
  else if component = ".." then segments.dropLast
  else segments ++ [component]

def splitSegments (text : List Char) : List String := (text.splitOn '/').map String.ofList

/-- `from_absolute_native_path`, of the text after the leading slash. -/
def parsePosixPath (rest : List Char) : PathUri :=
  let uri := PathUri.url none ((splitSegments rest).foldl pushSegment [])
  if inferPathConvention uri = some .posix then uri
  else .fallback (some .posix) (String.ofList ('/' :: rest))

def join (windowsJoin : PathUri → String → Option PathUri) (base : PathUri) (path : String) :
    Option PathUri :=
  if path.toList.contains '\x00' then none
  else if path = "" then some base
  else
    match inferPathConvention base with
    | none => none
    | some .windows => windowsJoin base path
    | some .posix =>
      match path.toList, base with
      | '/' :: rest, _ => some (parsePosixPath rest)
      | _, .fallback _ _ => none
      | text, .url host segments => some (.url host ((splitSegments text).foldl pushSegment segments))

def authority : Option String → String
  | none => ""
  | some host => "//" ++ host

theorem authority_injective : Function.Injective authority := by
  intro left right same
  have chars := congrArg String.toList same
  cases left with
  | none =>
    cases right with
    | none => rfl
    | some host => simp [authority] at chars
  | some host =>
    cases right with
    | none => simp [authority] at chars
    | some other =>
      simp only [authority, String.toList_append] at chars
      rw [String.toList_inj.mp (append_cancel_left chars)]

def placeOf : PathUri → Option (List String)
  | .fallback _ _ => none
  | .url host segments =>
    (containmentPathSegments (urlConvention host segments) segments).map fun segments =>
      authority host :: segments.map (comparedSegment (urlConvention host segments))

theorem placeOf_url (host : Option String) (segments : List String) :
    placeOf (.url host segments) =
      if segments.any (holdsSeparator (urlConvention host segments)) then none
      else some (authority host :: segments.map (comparedSegment (urlConvention host segments))) := by
  rw [placeOf, containmentPathSegments]
  split <;> rfl

theorem lexicalDepth_eq (uri : PathUri) :
    lexicalDepth uri = (placeOf uri).map fun place => place.length - 1 := by
  cases uri with
  | fallback convention native => rfl
  | url host segments =>
    rw [lexicalDepth, placeOf_url, containmentPathSegments]
    split
    · rfl
    · simp

variable {place : List String} {left right path base : PathUri}

theorem exists_of_placeOf {uri : PathUri} (found : placeOf uri = some place) :
    ∃ host segments, uri = .url host segments ∧
      segments.any (holdsSeparator (urlConvention host segments)) = false ∧
      place = authority host :: segments.map (comparedSegment (urlConvention host segments)) := by
  cases uri with
  | fallback convention native => cases found
  | url host segments =>
    rw [placeOf_url] at found
    split at found
    · cases found
    · rename_i clear
      cases found
      exact ⟨host, segments, rfl, eq_false_iff.mpr clear, rfl⟩

theorem placeOf_of_sameUri {leftPlace rightPlace : List String}
    (leftFound : placeOf left = some leftPlace) (rightFound : placeOf right = some rightPlace)
    (same : sameUri left right = true) : leftPlace = rightPlace := by
  rw [sameUri] at same
  split at same
  · rename_i equal
    rw [equal] at leftFound
    exact Option.some.inj (leftFound.symm.trans rightFound)
  · obtain ⟨leftHost, leftSegments, rfl, _, rfl⟩ := exists_of_placeOf leftFound
    obtain ⟨rightHost, rightSegments, rfl, _, rfl⟩ := exists_of_placeOf rightFound
    simp only [windowsIdentity] at same
    split at same
    · rename_i leftPath rightPath leftWindows rightWindows
      split at leftWindows
      · cases leftWindows
      · rename_i leftKind
        split at rightWindows
        · cases rightWindows
        · rename_i rightKind
          cases leftWindows
          cases rightWindows
          have leftConvention := not_not.mp (not_or.mp leftKind).1
          have rightConvention := not_not.mp (not_or.mp rightKind).1
          have parts := of_decide_eq_true same
          simp only [hostOf] at parts
          rw [leftConvention, rightConvention, parts.1, parts.2]
    · cases same

theorem sameUri_of_placeOf (convention : inferPathConvention left = inferPathConvention right)
    (leftFound : placeOf left = some place) (rightFound : placeOf right = some place) :
    sameUri left right = true := by
  obtain ⟨leftHost, leftSegments, rfl, leftClear, rfl⟩ := exists_of_placeOf leftFound
  obtain ⟨rightHost, rightSegments, rfl, rightClear, equal⟩ := exists_of_placeOf rightFound
  have same : urlConvention leftHost leftSegments = urlConvention rightHost rightSegments :=
    Option.some.inj convention
  obtain ⟨hosts, segments⟩ := cons.inj equal
  cases authority_injective hosts
  rw [same] at segments leftClear
  cases kind : urlConvention leftHost rightSegments with
  | posix =>
    rw [kind] at segments
    have plain : comparedSegment .posix = id := rfl
    rw [plain, map_id, map_id] at segments
    rw [sameUri, segments, if_pos rfl]
  | windows =>
    rw [kind] at segments leftClear rightClear
    rw [sameUri]
    split
    · rfl
    · simp [windowsIdentity, same, kind, leftClear, rightClear, hostOf, segments]

theorem startsWith_iff {pathPlace basePlace : List String}
    (same : inferPathConvention path = inferPathConvention base)
    (pathFound : placeOf path = some pathPlace) (baseFound : placeOf base = some basePlace) :
    startsWith path base = true ↔ basePlace <+: pathPlace := by
  obtain ⟨pathHost, pathSegments, rfl, pathClear, rfl⟩ := exists_of_placeOf pathFound
  obtain ⟨baseHost, baseSegments, rfl, baseClear, rfl⟩ := exists_of_placeOf baseFound
  have convention : urlConvention pathHost pathSegments = urlConvention baseHost baseSegments :=
    Option.some.inj same
  by_cases equal : sameUri (.url pathHost pathSegments) (.url baseHost baseSegments) = true
  · rw [placeOf_of_sameUri pathFound baseFound equal]
    exact iff_of_true (by rw [startsWith, if_pos equal]) (prefix_refl _)
  · simp only [startsWith, equal]
    rw [convention] at pathClear ⊢
    simp only [containmentPathSegments, pathClear, baseClear, nativePathSegmentsStartWith]
    by_cases hosts : pathHost = baseHost
    · simp [hosts]
    · have apart : authority baseHost ≠ authority pathHost := fun equal =>
        hosts (authority_injective equal).symm
      simp [hosts, apart]

theorem joinDescendant_of_place {root : PathUri} {name : String} (found : placeOf root = some place)
    (plain : ∀ convention, holdsSeparator convention name = false)
    (undriven : isWindowsDriveUriSegment name = false)
    (lower : ∀ convention, comparedSegment convention name = name) :
    ∃ descendant, joinDescendant root name = some descendant ∧
      inferPathConvention descendant = inferPathConvention root ∧
      placeOf descendant = some (place ++ [name]) := by
  obtain ⟨host, segments, rfl, clear, rfl⟩ := exists_of_placeOf found
  have convention : urlConvention host (segments ++ [name]) = urlConvention host segments := by
    cases segments with
    | nil => simp [urlConvention, undriven]
    | cons first rest => rfl
  have below : placeOf (.url host (segments ++ [name])) =
      some (authority host :: segments.map (comparedSegment (urlConvention host segments)) ++
        [name]) := by
    rw [placeOf_url, convention, any_append, clear]
    simp [plain, lower]
  have starts : startsWith (.url host (segments ++ [name])) (.url host segments) = true := by
    rw [startsWith_iff (by simp [inferPathConvention, convention]) below found]
    exact prefix_append _ _
  refine ⟨.url host (segments ++ [name]), ?_, ?_, below⟩
  · rw [joinDescendant]
    simp [starts]
  · simp [inferPathConvention, convention]

theorem windowsIdentity_of_no_place {uri : PathUri} (absent : placeOf uri = none) :
    windowsIdentity uri = none := by
  cases uri with
  | fallback convention native => rfl
  | url host segments =>
    rw [placeOf_url] at absent
    rw [windowsIdentity]
    split at absent
    · rename_i separated
      split
      · rfl
      · rename_i windows
        have parts := not_or.mp windows
        rw [not_not.mp parts.1] at separated
        exact absurd separated parts.2
    · cases absent

theorem sameUri_of_no_place (absent : placeOf base = none) (apart : path ≠ base) :
    sameUri path base = false := by
  rw [sameUri, if_neg apart, windowsIdentity_of_no_place absent]
  cases windowsIdentity path <;> rfl

theorem startsWith_of_no_place (absent : placeOf base = none) (apart : path ≠ base) :
    startsWith path base = false := by
  have differs := sameUri_of_no_place absent apart
  cases base with
  | fallback convention native => simp [startsWith, differs]
  | url host segments =>
    cases path with
    | fallback convention native => simp [startsWith, differs]
    | url pathHost pathSegments =>
      rw [placeOf_url] at absent
      split at absent
      · rename_i separated
        simp only [startsWith, differs]
        by_cases convention :
            urlConvention pathHost pathSegments = urlConvention host segments
        · simp [convention, containmentPathSegments, separated]
        · simp [convention]
      · cases absent

theorem sameUri_comm (left right : PathUri) : sameUri left right = sameUri right left := by
  by_cases equal : left = right
  · rw [equal]
  · rw [sameUri, sameUri, if_neg equal, if_neg (Ne.symm equal)]
    cases windowsIdentity left with
    | none => cases windowsIdentity right <;> rfl
    | some leftPath =>
      cases windowsIdentity right with
      | none => rfl
      | some rightPath => exact decide_eq_decide.mpr (and_congr eq_comm eq_comm)

theorem inferPathConvention_of_sameUri (same : sameUri left right = true) :
    inferPathConvention left = inferPathConvention right := by
  rw [sameUri] at same
  split at same
  · rename_i equal
    rw [equal]
  · cases left with
    | fallback convention native => simp [windowsIdentity] at same
    | url leftHost leftSegments =>
      cases right with
      | fallback convention native => simp [windowsIdentity] at same
      | url rightHost rightSegments =>
        split at same
        · rename_i leftWindows rightWindows
          have leftKind := (not_or.mp (Option.ite_none_left_eq_some.mp leftWindows).1).1
          have rightKind := (not_or.mp (Option.ite_none_left_eq_some.mp rightWindows).1).1
          rw [inferPathConvention, inferPathConvention, not_not.mp leftKind, not_not.mp rightKind]
        · cases same

theorem inferPathConvention_of_startsWith (starts : startsWith path base = true) :
    inferPathConvention path = inferPathConvention base := by
  by_cases same : sameUri path base = true
  · exact inferPathConvention_of_sameUri same
  · cases path with
    | fallback convention native => simp [startsWith, same] at starts
    | url pathHost pathSegments =>
      cases base with
      | fallback convention native => simp [startsWith, same] at starts
      | url baseHost baseSegments =>
        by_contra apart
        have differs : urlConvention pathHost pathSegments ≠
            urlConvention baseHost baseSegments := fun equal => apart (congrArg some equal)
        simp [startsWith, same, differs] at starts

theorem eq_of_startsWith_placeless (absent : placeOf path = none)
    (starts : startsWith path base = true) : path = base := by
  by_contra apart
  have differs : sameUri path base = false := by
    rw [sameUri, if_neg apart, windowsIdentity_of_no_place absent]
  simp only [startsWith, differs] at starts
  cases path with
  | fallback convention native => cases starts
  | url pathHost pathSegments =>
    cases base with
    | fallback convention native => cases starts
    | url baseHost baseSegments =>
      rw [placeOf, Option.map_eq_none_iff] at absent
      simp [absent] at starts

theorem joinDescendant_of_no_place {root : PathUri} (name : String) (absent : placeOf root = none) :
    joinDescendant root name = none := by
  cases root with
  | fallback convention native => rfl
  | url host segments =>
    have apart : PathUri.url host (segments ++ [name]) ≠ .url host segments := by
      simp
    rw [joinDescendant]
    simp [startsWith_of_no_place absent apart]

end OpenInterpreter.ExecutorPath
