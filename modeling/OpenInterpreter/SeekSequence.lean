import OpenInterpreter.ChunkPlacement

/-! The match that `apply-patch/src/seek_sequence.rs` finds. -/

namespace OpenInterpreter.SeekSequence

open Text PatchParser FileUpdate ChunkPlacement List

def compareSlice (lines pattern : List (List Char)) (index : Nat) : Option Bool :=
  if index + pattern.length ≤ lines.length then
    some ((lines.drop index).take pattern.length == pattern)
  else none

def compareLines (key : List Char → List Char) (lines : List (List Char)) :
    List (List Char) → Nat → Option Bool
  | [], _ => some true
  | pat :: pattern, index =>
    lines[index]?.bind fun line =>
      if key line ≠ key pat then some false else compareLines key lines pattern (index + 1)

def firstChecked (compare : Nat → Option Bool) : List Nat → Option (Option Nat)
  | [] => some none
  | index :: rest =>
    (compare index).bind fun ok => if ok then some (some index) else firstChecked compare rest

def windows (lines pattern : List (List Char)) (first : Nat) : List Nat :=
  range' first (lines.length - pattern.length + 1 - first)

/-- `seek_sequence` with its accesses, where `none` is one out of range. -/
def seekChecked (lines pattern : List (List Char)) (start : Nat) (eof : Bool)
    (mode : ApplyPatchFileUpdateMode) : Option (Option Nat) :=
  if pattern = [] then some (some start)
  else if lines.length < pattern.length then some none
  else
    let windows := windows lines pattern (searchStart lines pattern start eof mode)
    do
      if let some index ← firstChecked (compareSlice lines pattern) windows then return some index
      if let some index ← firstChecked (compareLines trimEnd lines pattern) windows then
        return some index
      if let some index ← firstChecked (compareLines trim lines pattern) windows then
        return some index
      firstChecked (compareLines normalise lines pattern) windows

variable {lines pattern : List (List Char)} {key : List Char → List Char} {start index : Nat}

theorem compareLines_eq (within : index + pattern.length ≤ lines.length) :
    compareLines key lines pattern index = some (windowMatches key lines pattern index) := by
  induction pattern generalizing index with
  | nil => rfl
  | cons pat pattern ih =>
    rw [length_cons] at within
    have inside : index < lines.length := by omega
    rw [compareLines, getElem?_eq_getElem inside, ih (by omega)]
    unfold windowMatches
    rw [drop_eq_getElem_cons inside, length_cons, take_succ_cons, map_cons]
    by_cases same : key lines[index] = key pat
    · simp [same]
    · simp [same]

theorem firstChecked_eq {compare : Nat → Option Bool} {test : Nat → Bool} {indices : List Nat}
    (checked : ∀ index ∈ indices, compare index = some (test index)) :
    firstChecked compare indices = some (indices.find? test) := by
  induction indices with
  | nil => rfl
  | cons index indices ih =>
    obtain ⟨first, rest⟩ := forall_mem_cons.mp checked
    rw [firstChecked, first, find?_cons, ih rest]
    cases test index <;> rfl

theorem mem_windows {first : Nat} (room : pattern.length ≤ lines.length)
    (inside : index ∈ windows lines pattern first) : index + pattern.length ≤ lines.length := by
  rw [windows, mem_range'_1] at inside
  omega

theorem seekChecked_eq (lines pattern : List (List Char)) (start : Nat) (eof : Bool)
    (mode : ApplyPatchFileUpdateMode) :
    seekChecked lines pattern start eof mode = some (seekSequence lines pattern start eof mode) := by
  unfold seekChecked
  by_cases empty : pattern = []
  · rw [if_pos empty, seekSequence.eq_def, if_pos empty]
  rw [if_neg empty]
  by_cases short : lines.length < pattern.length
  · rw [if_pos short, seekSequence_short empty short]
  have room := Nat.le_of_not_lt short
  rw [if_neg short, seekSequence_eq empty room]
  generalize searchStart lines pattern start eof mode = first
  have slices : firstChecked (compareSlice lines pattern) (windows lines pattern first) =
      some (firstWindow id lines pattern first) := by
    refine firstChecked_eq fun index inside => ?_
    rw [compareSlice, if_pos (mem_windows room inside), windowMatches, map_id, map_id]
  have passes (key : List Char → List Char) :
      firstChecked (compareLines key lines pattern) (windows lines pattern first) =
        some (firstWindow key lines pattern first) :=
    firstChecked_eq fun index inside => compareLines_eq (mem_windows room inside)
  dsimp only
  rw [slices, passes, passes, passes]
  simp only [searchKeys, findSome?_cons]
  cases firstWindow id lines pattern first with
  | some index => rfl
  | none =>
    cases firstWindow trimEnd lines pattern first with
    | some index => rfl
    | none =>
      cases firstWindow trim lines pattern first with
      | some index => rfl
      | none => cases firstWindow normalise lines pattern first <;> rfl

structure Earliest (key : List Char → List Char) (lines pattern : List (List Char))
    (start index : Nat) : Prop where
  behind : start ≤ index
  matched : windowMatches key lines pattern index = true
  least : ∀ other, start ≤ other → windowMatches key lines pattern other = true → index ≤ other

def Absent (key : List Char → List Char) (lines pattern : List (List Char)) (start : Nat) : Prop :=
  ∀ index, start ≤ index → ¬ windowMatches key lines pattern index = true

def Nested (lines pattern : List (List Char)) : Prop :=
  searchKeys.Pairwise fun stricter weaker => ∀ index,
    windowMatches stricter lines pattern index = true →
      windowMatches weaker lines pattern index = true

theorem windowMatches_comp (coarser : List Char → List Char) {weaker : List Char → List Char}
    (reads : weaker = coarser ∘ key) (index : Nat)
    (matched : windowMatches key lines pattern index = true) :
    windowMatches weaker lines pattern index = true := by
  subst reads
  unfold windowMatches at matched ⊢
  rw [← map_map, ← map_map, beq_iff_eq.mp matched]
  exact beq_self_eq_true _

theorem searchKeys_nested (lines pattern : List (List Char)) : Nested lines pattern := by
  have trimmed : trim = trim ∘ trimEnd := by
    funext text
    rw [Function.comp_apply, trim_eq, trim_eq, trimEnd_idem]
  have normalised : normalise = normalise ∘ trimEnd := by
    funext text
    exact congrArg (map normaliseChar) (congrFun trimmed text)
  simp only [Nested, searchKeys, pairwise_cons, forall_mem_cons, not_mem_nil, false_imp_iff,
    implies_true, and_true, Pairwise.nil]
  exact ⟨⟨windowMatches_comp trimEnd rfl, windowMatches_comp trim rfl,
      windowMatches_comp normalise rfl⟩,
    ⟨windowMatches_comp trim trimmed, windowMatches_comp normalise normalised⟩,
    windowMatches_comp (map normaliseChar) rfl⟩

section

variable (nonempty : pattern ≠ [])
include nonempty

theorem window_within (matched : windowMatches key lines pattern index = true) :
    index + pattern.length ≤ lines.length := by
  have lengths := congrArg List.length (beq_iff_eq.mp matched)
  have := length_pos_iff.mpr nonempty
  simp only [length_map, length_take, length_drop] at lengths
  omega

theorem firstWindow_eq_some :
    firstWindow key lines pattern start = some index ↔ Earliest key lines pattern start index := by
  rw [firstWindow, find?_range'_eq_some, mem_range'_1]
  constructor
  · rintro ⟨matched, inside, before⟩
    refine ⟨inside.1, matched, fun other behind same => Nat.le_of_not_lt fun earlier => ?_⟩
    have different := before other behind earlier
    rw [same] at different
    cases different
  · rintro ⟨behind, matched, least⟩
    have within := window_within nonempty matched
    refine ⟨matched, ⟨behind, by omega⟩, fun other later earlier => ?_⟩
    rw [Bool.not_eq_true', Bool.eq_false_iff]
    intro same
    have := least other later same
    omega

theorem firstWindow_eq_none :
    firstWindow key lines pattern start = none ↔ Absent key lines pattern start := by
  rw [firstWindow, find?_range'_eq_none]
  constructor
  · intro none index behind matched
    have within := window_within nonempty matched
    have different := none index behind (by omega)
    rw [matched] at different
    cases different
  · intro absent index behind _
    rw [Bool.not_eq_true', Bool.eq_false_iff]
    exact absent index behind

theorem seekSequence_passes (lines : List (List Char)) (start : Nat) (eof : Bool)
    (mode : ApplyPatchFileUpdateMode) :
    seekSequence lines pattern start eof mode = searchKeys.findSome? fun key =>
      firstWindow key lines pattern (searchStart lines pattern start eof mode) := by
  by_cases short : lines.length < pattern.length
  · rw [seekSequence_short nonempty short, eq_comm, findSome?_eq_none_iff]
    intro key _
    rw [firstWindow_eq_none nonempty]
    intro index _ matched
    have within := window_within nonempty matched
    omega
  · exact seekSequence_eq nonempty (Nat.le_of_not_lt short)

theorem seekSequence_eq_some {eof : Bool} {mode : ApplyPatchFileUpdateMode} :
    seekSequence lines pattern start eof mode = some index ↔
      ∃ stricter key weaker, searchKeys = stricter ++ key :: weaker ∧
        Earliest key lines pattern (searchStart lines pattern start eof mode) index ∧
        ∀ other ∈ stricter,
          Absent other lines pattern (searchStart lines pattern start eof mode) := by
  rw [seekSequence_passes nonempty, findSome?_eq_some_iff]
  simp only [firstWindow_eq_some nonempty, firstWindow_eq_none nonempty]

theorem seekSequence_eq_none {eof : Bool} {mode : ApplyPatchFileUpdateMode} :
    seekSequence lines pattern start eof mode = none ↔
      Absent normalise lines pattern (searchStart lines pattern start eof mode) := by
  have nested := searchKeys_nested lines pattern
  rw [seekSequence_passes nonempty, findSome?_eq_none_iff]
  simp only [firstWindow_eq_none nonempty]
  have parts : searchKeys = [id, trimEnd, trim] ++ [normalise] := rfl
  constructor
  · exact fun absent => absent normalise (by simp [searchKeys])
  · intro absent key listed index behind matched
    apply absent index behind
    rw [Nested, parts, pairwise_append] at nested
    rw [parts, mem_append, mem_singleton] at listed
    rcases listed with stricter | rfl
    · exact nested.2.2 key stricter normalise (mem_singleton_self _) index matched
    · exact matched

end

/-- The search finds the earliest window of the strictest level at which there is one, misses only
when there is none at the most lenient level, and reads no line out of range. -/
theorem seekSequence_strictest (lines pattern : List (List Char)) (start : Nat) (eof : Bool)
    (mode : ApplyPatchFileUpdateMode) (nonempty : pattern ≠ []) :
    (∀ index, seekSequence lines pattern start eof mode = some index ↔
      ∃ stricter key weaker, searchKeys = stricter ++ key :: weaker ∧
        Earliest key lines pattern (searchStart lines pattern start eof mode) index ∧
        ∀ other ∈ stricter, Absent other lines pattern (searchStart lines pattern start eof mode)) ∧
    (seekSequence lines pattern start eof mode = none ↔
      Absent normalise lines pattern (searchStart lines pattern start eof mode)) ∧
    Nested lines pattern ∧
    seekChecked lines pattern start eof mode =
      some (seekSequence lines pattern start eof mode) :=
  ⟨fun _ => seekSequence_eq_some nonempty, seekSequence_eq_none nonempty,
    searchKeys_nested lines pattern, seekChecked_eq ..⟩

theorem trailing_before_indented :
    ∃ stricter key weaker, searchKeys = stricter ++ key :: weaker ∧
      Earliest key [" a".toList, "a ".toList] ["a".toList] 0 1 ∧
      ∀ other ∈ stricter, Absent other [" a".toList, "a ".toList] ["a".toList] 0 :=
  ((seekSequence_strictest _ _ 0 false .normalizeToLf (by decide)).1 1).mp (by decide)

/-- Some lines of the file, from where the search starts, are the old lines of the chunk at the
most lenient level. -/
def Stands (lines : List (List Char)) (mode : ApplyPatchFileUpdateMode) (chunk : UpdateFileChunk)
    (reached : Nat) : Prop :=
  ∃ index, searchStart lines chunk.oldLines reached chunk.isEndOfFile mode ≤ index ∧
    windowMatches normalise lines chunk.oldLines index = true

/-- A placed chunk with old lines has them where they stand in the file, and is else placed
without an empty last one. -/
theorem place_cases {mode : ApplyPatchFileUpdateMode} {chunk : UpdateFileChunk} {reached : Nat}
    {placement : Placement} (nonempty : chunk.oldLines ≠ [])
    (placed : place lines mode chunk reached = some placement) :
    (Stands lines mode chunk reached ∧
        placement = ⟨placement.start, chunk.oldLines, chunk.newLines⟩ ∧
        seekSequence lines chunk.oldLines reached chunk.isEndOfFile mode =
          some placement.start) ∨
      (¬ Stands lines mode chunk reached ∧ chunk.oldLines.getLast? = some [] ∧
        placement =
          ⟨placement.start, chunk.oldLines.dropLast, withoutTrailing chunk.newLines⟩ ∧
        seekSequence lines chunk.oldLines.dropLast reached chunk.isEndOfFile mode =
          some placement.start) := by
  have stands_iff : Stands lines mode chunk reached ↔
      seekSequence lines chunk.oldLines reached chunk.isEndOfFile mode ≠ none := by
    rw [ne_eq, seekSequence_eq_none nonempty, Absent, Stands]
    push Not
    rfl
  rw [stands_iff]
  rw [place, if_neg nonempty] at placed
  obtain ⟨⟨start, pattern, new⟩, located, rfl⟩ := Option.map_eq_some_iff.mp placed
  rcases locateChunk_cases located with ⟨found, same⟩ | ⟨none, pattern, ends, found, same⟩
  · cases same
    exact Or.inl ⟨by simp [found], rfl, found⟩
  · cases same
    rw [ends, getLast?_concat, dropLast_concat]
    rw [ends] at none
    exact Or.inr ⟨not_not.mpr none, rfl, rfl, found⟩

end OpenInterpreter.SeekSequence
