import OpenInterpreter.AbsolutePath
import OpenInterpreter.ExecutorPath

/-! Absolute paths of a POSIX host and their URIs: `utils/absolute-path/src/lib.rs` and
`PathUri::from_abs_path`, `PathUri::to_abs_path`. -/

namespace OpenInterpreter.LocalPaths

open AbsolutePath ExecutorPath List

def PlainComponent (component : String) : Prop :=
  NormalComponent component ∧ '/' ∉ component.toList ∧ '\x00' ∉ component.toList

instance (component : String) : Decidable (PlainComponent component) :=
  inferInstanceAs (Decidable (_ ∧ _ ∧ _))

@[ext]
structure HostPath where
  components : List String
  plain : ∀ component ∈ components, PlainComponent component
  deriving DecidableEq

namespace HostPath

def root : HostPath := ⟨[], fun _ member => absurd member not_mem_nil⟩

def startsWith (path base : HostPath) : Bool := base.components <+: path.components

def push (path : HostPath) (component : String) : HostPath :=
  if kept : PlainComponent component then
    ⟨path.components ++ [component], by
      intro other member
      cases mem_append.mp member with
      | inl old => exact path.plain other old
      | inr new =>
        rw [mem_singleton.mp new]
        exact kept⟩
  else if component = ".." then
    ⟨path.components.dropLast, fun other member =>
      path.plain other (mem_of_mem_dropLast member)⟩
  else path

def normalize (base : HostPath) (text : List Char) : HostPath :=
  (splitSegments text).foldl push base

def driven (path : HostPath) : Bool := path.components.head?.any isWindowsDriveUriSegment

def nativeText (path : HostPath) : List Char :=
  '/' :: ['/'].intercalate (path.components.map String.toList)

end HostPath

def resolvePathAgainstBase (home : Option HostPath) (path : String) (base : HostPath) : HostPath :=
  match path.toList, home with
  | ['~'], some home => home
  | '~' :: '/' :: rest, some home => home.normalize rest
  | '/' :: rest, _ => HostPath.root.normalize rest
  | text, _ => base.normalize text

def fromAbsPath (path : HostPath) : PathUri :=
  let uri := PathUri.url none path.components
  if inferPathConvention uri = some .posix then uri
  else .fallback (some .posix) (String.ofList path.nativeText)

def toAbsPath (uri : PathUri) : Option HostPath :=
  if inferPathConvention uri ≠ some .posix then none
  else
    match uri with
    | .url _ segments =>
      some (HostPath.root.normalize (['/'].intercalate (segments.map String.toList)))
    | .fallback _ native =>
      match native.toList with
      | '/' :: rest =>
        let path := HostPath.root.normalize rest
        if sameUri (fromAbsPath path) uri then some path else none
      | _ => none

def hostPlace (path : HostPath) : Option (List String) :=
  if path.driven then none else some ("" :: path.components)

section

variable (path : HostPath)

theorem inferPathConvention_fromAbsPath : inferPathConvention (fromAbsPath path) = some .posix := by
  simp only [fromAbsPath]
  split
  · rename_i posix
    exact posix
  · rfl

theorem fromAbsPath_of_not_driven (undriven : path.driven = false) :
    fromAbsPath path = .url none path.components := by
  simp only [HostPath.driven] at undriven
  simp [fromAbsPath, inferPathConvention, urlConvention, undriven]

theorem fromAbsPath_of_driven (driven : path.driven = true) :
    fromAbsPath path = .fallback (some .posix) (String.ofList path.nativeText) := by
  simp only [HostPath.driven] at driven
  simp [fromAbsPath, inferPathConvention, urlConvention, driven]

theorem unseparated : path.components.any (holdsSeparator .posix) = false := by
  apply any_eq_false.mpr
  intro component member separated
  obtain ⟨char, found, kind⟩ := any_eq_true.mp separated
  have slash : char = '/' := by simpa using kind
  rw [slash] at found
  exact (path.plain component member).2.1 found

theorem placeOf_fromAbsPath : placeOf (fromAbsPath path) = hostPlace path := by
  cases driven : path.driven with
  | true =>
    rw [fromAbsPath_of_driven path driven, hostPlace, driven]
    rfl
  | false =>
    have posix : urlConvention none path.components = .posix := by
      simp only [HostPath.driven] at driven
      simp [urlConvention, driven]
    rw [fromAbsPath_of_not_driven path driven, placeOf_url, posix, unseparated, hostPlace, driven]
    have plain : comparedSegment .posix = id := rfl
    simp [plain, authority]

theorem isOpaque_of_placeless (placeless : placeOf (fromAbsPath path) = none) :
    isOpaque (fromAbsPath path) = true := by
  cases driven : path.driven with
  | true =>
    rw [fromAbsPath_of_driven path driven]
    rfl
  | false =>
    rw [placeOf_fromAbsPath, hostPlace, driven] at placeless
    cases placeless

theorem push_of_plain {component : String} (kept : PlainComponent component) :
    (path.push component).components = path.components ++ [component] := by
  rw [HostPath.push, dif_pos kept]

theorem foldl_push_plain {components : List String}
    (plain : ∀ component ∈ components, PlainComponent component) :
    (components.foldl HostPath.push path).components = path.components ++ components := by
  induction components generalizing path with
  | nil => simp
  | cons head tail ih =>
    rw [foldl_cons, ih _ fun component member => plain component (mem_cons_of_mem _ member),
      push_of_plain path (plain head mem_cons_self), append_assoc]
    rfl

theorem normalize_nativeText :
    HostPath.root.normalize (['/'].intercalate (path.components.map String.toList)) = path := by
  apply HostPath.ext
  cases shape : path.components with
  | nil => decide
  | cons head tail =>
    have unslashed : ∀ text ∈ path.components.map String.toList, '/' ∉ text := by
      intro text member
      obtain ⟨component, listed, rfl⟩ := mem_map.mp member
      exact (path.plain component listed).2.1
    have parts : splitSegments (['/'].intercalate (path.components.map String.toList)) =
        path.components := by
      rw [splitSegments, splitOn_intercalate '/' unslashed (by simp [shape]), map_map]
      have same : String.ofList ∘ String.toList = id := by
        simp
      rw [same, map_id]
    rw [← shape, HostPath.normalize, parts, foldl_push_plain _ path.plain]
    rfl

theorem toAbsPath_fromAbsPath : toAbsPath (fromAbsPath path) = some path := by
  have posix := inferPathConvention_fromAbsPath path
  cases driven : path.driven with
  | true =>
    have shape := fromAbsPath_of_driven path driven
    rw [HostPath.nativeText] at shape
    rw [shape] at posix ⊢
    simp only [toAbsPath, posix, ne_eq, not_true_eq_false, if_false, String.toList_ofList,
      normalize_nativeText, shape, sameUri, if_true]
  | false =>
    have shape := fromAbsPath_of_not_driven path driven
    rw [shape] at posix ⊢
    simp only [toAbsPath, posix, ne_eq, not_true_eq_false, if_false, normalize_nativeText]

theorem components_foldl_push {segments : List String}
    (clean : ∀ segment ∈ segments, '/' ∉ segment.toList ∧ '\x00' ∉ segment.toList) :
    (segments.foldl HostPath.push path).components = segments.foldl pushSegment path.components := by
  induction segments generalizing path with
  | nil => rfl
  | cons head tail ih =>
    rw [foldl_cons, foldl_cons, ih _ fun segment member => clean segment (mem_cons_of_mem _ member)]
    have headClean := clean head mem_cons_self
    rw [HostPath.push, pushSegment]
    by_cases empty : head = "" ∨ head = "."
    · have dropped : ¬ PlainComponent head := by
        rintro ⟨⟨filled, single, _⟩, _⟩
        cases empty with
        | inl none => exact filled none
        | inr dot => exact single dot
      have other : head ≠ ".." := by
        rintro rfl
        simp at empty
      rw [dif_neg dropped, if_neg other, if_pos empty]
    · rw [if_neg empty]
      by_cases parent : head = ".."
      · have dropped : ¬ PlainComponent head := fun kept => kept.1.2.2 parent
        rw [dif_neg dropped, if_pos parent, if_pos parent]
      · have kept : PlainComponent head :=
          ⟨⟨fun none => empty (.inl none), fun dot => empty (.inr dot), parent⟩, headClean⟩
        rw [dif_pos kept, if_neg parent]

end

namespace HostPath

variable {path base : HostPath}

theorem startsWith_iff :
    path.startsWith base = true ↔ base.components <+: path.components := decide_eq_true_iff

theorem startsWith_refl (path : HostPath) : path.startsWith path = true :=
  startsWith_iff.mpr (prefix_refl _)

theorem startsWith_trans {middle : HostPath} (lower : path.startsWith middle = true)
    (upper : middle.startsWith base = true) : path.startsWith base = true :=
  startsWith_iff.mpr ((startsWith_iff.mp upper).trans (startsWith_iff.mp lower))

theorem startsWith_antisymm {left right : HostPath} (below : left.startsWith right = true)
    (above : right.startsWith left = true) : left = right := by
  have down := startsWith_iff.mp below
  have up := startsWith_iff.mp above
  exact HostPath.ext (up.eq_of_length (Nat.le_antisymm up.length_le down.length_le))

theorem startsWith_total {left right : HostPath} (first : path.startsWith left = true)
    (second : path.startsWith right = true) :
    left.startsWith right = true ∨ right.startsWith left = true := by
  cases prefix_or_prefix_of_prefix (startsWith_iff.mp first) (startsWith_iff.mp second) with
  | inl above => exact .inr (startsWith_iff.mpr above)
  | inr below => exact .inl (startsWith_iff.mpr below)

theorem undriven_of_startsWith (below : path.startsWith base = true)
    (undriven : path.driven = false) : base.driven = false := by
  obtain ⟨rest, whole⟩ := startsWith_iff.mp below
  rw [HostPath.driven] at undriven ⊢
  cases shape : base.components with
  | nil => rfl
  | cons head tail =>
    rw [← whole, shape] at undriven
    exact undriven

theorem root_of_driven (below : path.startsWith base = true) (driven : path.driven = true)
    (undriven : base.driven = false) : base = root := by
  obtain ⟨rest, whole⟩ := startsWith_iff.mp below
  rw [HostPath.driven] at driven undriven
  apply HostPath.ext
  cases shape : base.components with
  | nil => rfl
  | cons head tail =>
    rw [shape] at undriven
    rw [← whole, shape] at driven
    exact absurd driven (by rw [cons_append, head?_cons]; simpa using undriven)

theorem exists_drive (driven : path.driven = true) :
    ∃ drive : HostPath, drive.driven = true ∧ drive.components.length = 1 ∧
      path.startsWith drive = true := by
  rw [HostPath.driven] at driven
  cases shape : path.components with
  | nil =>
    rw [shape] at driven
    cases driven
  | cons head tail =>
    rw [shape] at driven
    have plain : ∀ component ∈ [head], PlainComponent component := by
      intro component member
      apply path.plain component
      rw [shape, mem_singleton.mp member]
      exact mem_cons_self
    refine ⟨⟨[head], plain⟩, driven, rfl, startsWith_iff.mpr ?_⟩
    rw [shape]
    exact cons_prefix_cons.mpr ⟨rfl, nil_prefix⟩

end HostPath

end OpenInterpreter.LocalPaths
