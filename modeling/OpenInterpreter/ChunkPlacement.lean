import OpenInterpreter.FileUpdate
import OpenInterpreter.ListRegions

/-! Where `compute_replacements` finds each chunk of an update. -/

namespace OpenInterpreter.ChunkPlacement

open Text PatchParser FileUpdate ListRegions List Option

structure Placement where
  start : Nat
  old : List (List Char)
  new : List (List Char)
  deriving DecidableEq

def Placement.stop (placement : Placement) : Nat := placement.start + placement.old.length

def Placement.region (placement : Placement) : Region (List Char) :=
  ⟨placement.start, placement.old.length, placement.new⟩

def contextIndex (originalLines : List (List Char)) (mode : ApplyPatchFileUpdateMode)
    (chunk : UpdateFileChunk) (lineIndex : Nat) : Option Nat :=
  match chunk.changeContext with
  | none => some lineIndex
  | some context => (seekSequence originalLines [context] lineIndex false mode).map (· + 1)

def place (originalLines : List (List Char)) (mode : ApplyPatchFileUpdateMode)
    (chunk : UpdateFileChunk) (lineIndex : Nat) : Option Placement :=
  if chunk.oldLines = [] then some ⟨insertionIdx originalLines mode, [], chunk.newLines⟩
  else (locateChunk originalLines mode chunk lineIndex).map fun found =>
    ⟨found.1, found.2.1, found.2.2⟩

def indexBehind (chunk : UpdateFileChunk) (lineIndex : Nat) (placement : Placement) : Nat :=
  if chunk.oldLines = [] then lineIndex else placement.stop

def placements (originalLines : List (List Char)) (mode : ApplyPatchFileUpdateMode) :
    List UpdateFileChunk → Nat → Option (List Placement)
  | [], _ => some []
  | chunk :: chunks, lineIndex =>
    (contextIndex originalLines mode chunk lineIndex).bind fun reached =>
      (place originalLines mode chunk reached).bind fun placement =>
        (placements originalLines mode chunks (indexBehind chunk reached placement)).map
          (placement :: ·)

/-- What holds of every chunk, the line index it is looked for from and the end of the lines that
the chunk before it took. -/
def EachChunk (holds : UpdateFileChunk → Nat → Nat → Prop) (originalLines : List (List Char))
    (mode : ApplyPatchFileUpdateMode) : List UpdateFileChunk → Nat → Nat → Prop
  | [], _, _ => True
  | chunk :: chunks, lineIndex, taken =>
    ∀ reached ∈ contextIndex originalLines mode chunk lineIndex, holds chunk reached taken ∧
      ∀ placement ∈ place originalLines mode chunk reached,
        EachChunk holds originalLines mode chunks (indexBehind chunk reached placement)
          placement.stop

def pieces (mode : ApplyPatchFileUpdateMode) (chunk : UpdateFileChunk) (placement : Placement) :
    Except UpdateFailure (List Replacement) :=
  if chunk.oldLines = [] then .ok [⟨placement.start, 0, placement.new⟩]
  else chunkReplacements mode chunk placement.start placement.old placement.new

def searchKeys : List (List Char → List Char) := [id, trimEnd, trim, normalise]

section

variable {lines pattern : List (List Char)} {start index : Nat}

theorem firstWindow_spec {key : List Char → List Char}
    (found : firstWindow key lines pattern start = some index) :
    start ≤ index ∧ index ≤ lines.length - pattern.length ∧
      windowMatches key lines pattern index = true := by
  have inside := mem_of_find?_eq_some found
  rw [mem_range'_1] at inside
  exact ⟨inside.1, by omega, find?_some found⟩

def searchStart (lines pattern : List (List Char)) (start : Nat) (eof : Bool)
    (mode : ApplyPatchFileUpdateMode) : Nat :=
  if eof then
    match mode with
    | .normalizeToLf => lines.length - pattern.length
    | .preserveLineEndings => max (lines.length - pattern.length) start
  else start

theorem seekSequence_eq {eof : Bool} {mode : ApplyPatchFileUpdateMode} (nonempty : pattern ≠ [])
    (room : pattern.length ≤ lines.length) :
    seekSequence lines pattern start eof mode = searchKeys.findSome? fun key =>
        firstWindow key lines pattern (searchStart lines pattern start eof mode) := by
  unfold seekSequence
  rw [if_neg nonempty, if_neg (Nat.not_lt.mpr room)]
  let search (key : List Char → List Char) :=
    firstWindow key lines pattern (searchStart lines pattern start eof mode)
  change ((search id).orElse fun _ => (search trimEnd).orElse fun _ =>
    (search trim).orElse fun _ => search normalise) = searchKeys.findSome? search
  clear_value search
  simp only [searchKeys, findSome?_cons]
  cases search id with
  | some index => rfl
  | none =>
    cases search trimEnd with
    | some index => rfl
    | none => cases search trim <;> cases search normalise <;> rfl

theorem seekSequence_short {eof : Bool} {mode : ApplyPatchFileUpdateMode} (nonempty : pattern ≠ [])
    (short : lines.length < pattern.length) :
    seekSequence lines pattern start eof mode = none := by
  unfold seekSequence
  rw [if_neg nonempty, if_pos short]

theorem seekSequence_spec {eof : Bool} {mode : ApplyPatchFileUpdateMode} (nonempty : pattern ≠ [])
    (found : seekSequence lines pattern start eof mode = some index) :
    index + pattern.length ≤ lines.length ∧ searchStart lines pattern start eof mode ≤ index ∧
      ∃ key ∈ searchKeys, windowMatches key lines pattern index = true := by
  by_cases short : lines.length < pattern.length
  · rw [seekSequence_short nonempty short] at found
    cases found
  have room := Nat.le_of_not_lt short
  rw [seekSequence_eq nonempty room] at found
  obtain ⟨key, listed, window⟩ := exists_of_findSome?_eq_some found
  obtain ⟨behind, upto, same⟩ := firstWindow_spec window
  exact ⟨by omega, behind, key, listed, same⟩

end

def withoutTrailing (lines : List (List Char)) : List (List Char) :=
  if lines.getLast? = some [] then lines.dropLast else lines

/-- What it means that a chunk stands where it was placed. A chunk without old lines is appended;
one whose last old line is empty may be placed without that line. -/
inductive Placement.Matches (originalLines : List (List Char)) (mode : ApplyPatchFileUpdateMode)
    (chunk : UpdateFileChunk) : Placement → Prop where
  | appended (blank : chunk.oldLines = []) :
      Matches originalLines mode chunk ⟨insertionIdx originalLines mode, [], chunk.newLines⟩
  | found {start : Nat} {key : List Char → List Char} (lines : chunk.oldLines ≠ [])
      (listed : key ∈ searchKeys)
      (same : windowMatches key originalLines chunk.oldLines start = true) :
      Matches originalLines mode chunk ⟨start, chunk.oldLines, chunk.newLines⟩
  | retried {start : Nat} {pattern : List (List Char)} {key : List Char → List Char}
      (ends : chunk.oldLines = pattern ++ [[]]) (listed : key ∈ searchKeys)
      (same : windowMatches key originalLines pattern start = true) :
      Matches originalLines mode chunk ⟨start, pattern, withoutTrailing chunk.newLines⟩

variable {originalLines : List (List Char)} {chunk : UpdateFileChunk}

section

variable {mode : ApplyPatchFileUpdateMode}
  {lineIndex reached : Nat} {placement : Placement}

theorem locateChunk_cases {found : Nat × List (List Char) × List (List Char)}
    (located : locateChunk originalLines mode chunk lineIndex = some found) :
    (seekSequence originalLines chunk.oldLines lineIndex chunk.isEndOfFile mode = some found.1 ∧
        found.2 = (chunk.oldLines, chunk.newLines)) ∨
      (seekSequence originalLines chunk.oldLines lineIndex chunk.isEndOfFile mode = none ∧
        ∃ pattern, chunk.oldLines = pattern ++ [[]] ∧
          seekSequence originalLines pattern lineIndex chunk.isEndOfFile mode = some found.1 ∧
          found.2 = (pattern, withoutTrailing chunk.newLines)) := by
  unfold locateChunk at located
  cases first : seekSequence originalLines chunk.oldLines lineIndex chunk.isEndOfFile mode with
  | some startIdx =>
    rw [first] at located
    cases located
    exact Or.inl ⟨rfl, rfl⟩
  | none =>
    rw [first] at located
    by_cases ends : chunk.oldLines.getLast? = some []
    · simp only [if_pos ends] at located
      obtain ⟨startIdx, again, rfl⟩ := map_eq_some_iff.mp located
      have split : chunk.oldLines = chunk.oldLines.dropLast ++ [[]] :=
        (dropLast_append_getLast? [] ends).symm
      exact Or.inr ⟨rfl, chunk.oldLines.dropLast, split, again, rfl⟩
    · simp only [if_neg ends] at located
      cases located

theorem seekSequence_bounds {pattern : List (List Char)} {eof : Bool} {index : Nat}
    (inside : lineIndex ≤ originalLines.length)
    (found : seekSequence originalLines pattern lineIndex eof mode = some index) :
    index + pattern.length ≤ originalLines.length ∧
      (∃ key ∈ searchKeys, windowMatches key originalLines pattern index = true) ∧
      (eof = false ∨ mode = .preserveLineEndings → lineIndex ≤ index) := by
  by_cases blank : pattern = []
  · have same : lineIndex = index := by simpa [seekSequence, blank] using found
    subst same blank
    exact ⟨inside, ⟨id, by simp [searchKeys], by simp [windowMatches]⟩, fun _ => Nat.le_refl _⟩
  · obtain ⟨within, start, matched⟩ := seekSequence_spec blank found
    refine ⟨within, matched, ?_⟩
    rintro (plain | rfl)
    · rw [plain] at start
      exact start
    · cases eof with
      | false => exact start
      | true =>
        have keeps : max (originalLines.length - pattern.length) lineIndex ≤ index := start
        omega

theorem insertionIdx_le (originalLines : List (List Char)) (mode : ApplyPatchFileUpdateMode) :
    insertionIdx originalLines mode ≤ originalLines.length := by
  cases mode with
  | normalizeToLf =>
    rw [insertionIdx]
    split
    · exact Nat.sub_le _ _
    · exact Nat.le_refl _
  | preserveLineEndings => exact Nat.le_refl _

theorem place_spec (inside : reached ≤ originalLines.length)
    (placed : place originalLines mode chunk reached = some placement) :
    placement.Matches originalLines mode chunk ∧ placement.stop ≤ originalLines.length ∧
      (chunk.oldLines ≠ [] → chunk.isEndOfFile = false ∨ mode = .preserveLineEndings →
        reached ≤ placement.start) := by
  unfold place at placed
  by_cases blank : chunk.oldLines = []
  · rw [if_pos blank] at placed
    cases placed
    exact ⟨.appended blank, insertionIdx_le originalLines mode, fun lines => absurd blank lines⟩
  · rw [if_neg blank] at placed
    obtain ⟨⟨start, pattern, new⟩, located, rfl⟩ := map_eq_some_iff.mp placed
    rcases locateChunk_cases located with ⟨found, same⟩ | ⟨-, pattern, ends, found, same⟩
    · cases same
      obtain ⟨within, ⟨key, listed, matched⟩, behind⟩ := seekSequence_bounds inside found
      exact ⟨.found blank listed matched, within, fun _ => behind⟩
    · cases same
      obtain ⟨within, ⟨key, listed, matched⟩, behind⟩ := seekSequence_bounds inside found
      exact ⟨.retried ends listed matched, within, fun _ => behind⟩

theorem contextIndex_spec (inside : lineIndex ≤ originalLines.length)
    (moved : contextIndex originalLines mode chunk lineIndex = some reached) :
    lineIndex ≤ reached ∧ reached ≤ originalLines.length := by
  unfold contextIndex at moved
  cases context : chunk.changeContext with
  | none =>
    rw [context] at moved
    cases moved
    exact ⟨Nat.le_refl _, inside⟩
  | some line =>
    rw [context] at moved
    obtain ⟨index, found, rfl⟩ := map_eq_some_iff.mp moved
    obtain ⟨within, -, behind⟩ := seekSequence_bounds inside found
    have start := behind (Or.inl rfl)
    exact ⟨by omega, within⟩

theorem indexBehind_le (inside : reached ≤ originalLines.length)
    (within : placement.stop ≤ originalLines.length) :
    indexBehind chunk reached placement ≤ originalLines.length := by
  unfold indexBehind
  split
  · exact inside
  · exact within

end

variable {mode : ApplyPatchFileUpdateMode}
    {chunks : List UpdateFileChunk} {lineIndex : Nat}
    {places : List Placement}

theorem placements_cons
    (placed : placements originalLines mode (chunk :: chunks) lineIndex = some places) :
    ∃ reached placement later, contextIndex originalLines mode chunk lineIndex = some reached ∧
      place originalLines mode chunk reached = some placement ∧
      placements originalLines mode chunks (indexBehind chunk reached placement) = some later ∧
      places = placement :: later := by
  obtain ⟨reached, moved, rest⟩ := bind_eq_some_iff.mp placed
  obtain ⟨placement, here, rest⟩ := bind_eq_some_iff.mp rest
  obtain ⟨later, others, rfl⟩ := map_eq_some_iff.mp rest
  exact ⟨reached, placement, later, moved, here, others, rfl⟩

theorem eachChunk_cons {holds : UpdateFileChunk → Nat → Nat → Prop} {reached taken : Nat}
    {placement : Placement} (moved : contextIndex originalLines mode chunk lineIndex = some reached)
    (here : place originalLines mode chunk reached = some placement) :
    EachChunk holds originalLines mode (chunk :: chunks) lineIndex taken ↔
      holds chunk reached taken ∧ EachChunk holds originalLines mode chunks
        (indexBehind chunk reached placement) placement.stop := by
  simp [EachChunk, moved, here]

theorem placements_spec (inside : lineIndex ≤ originalLines.length)
    (placed : placements originalLines mode chunks lineIndex = some places) :
    Forall₂ (Placement.Matches originalLines mode) chunks places ∧
      ∀ placement ∈ places, placement.stop ≤ originalLines.length := by
  induction chunks generalizing lineIndex places with
  | nil =>
    cases placed
    exact ⟨.nil, forall_mem_nil _⟩
  | cons chunk chunks ih =>
    obtain ⟨reached, placement, later, moved, here, others, rfl⟩ := placements_cons placed
    have bounds := contextIndex_spec inside moved
    obtain ⟨matched, within, -⟩ := place_spec bounds.2 here
    obtain ⟨rest, all⟩ := ih (indexBehind_le bounds.2 within) others
    exact ⟨.cons matched rest, forall_mem_cons.mpr ⟨within, all⟩⟩

variable (path : List Char) (chunks : List UpdateFileChunk)

theorem collect_lost (lost : contextIndex originalLines mode chunk lineIndex = none) :
    ∃ message, collectReplacements originalLines path mode (chunk :: chunks) lineIndex =
      .error (.computeReplacements message) := by
  unfold contextIndex at lost
  unfold collectReplacements
  cases context : chunk.changeContext with
  | none =>
    rw [context] at lost
    cases lost
  | some line =>
    rw [context] at lost
    have missing := map_eq_none_iff.mp lost
    refine ⟨missingContext line path, ?_⟩
    simp only [missing]
    rfl

theorem collect_reached {reached : Nat}
    (moved : contextIndex originalLines mode chunk lineIndex = some reached) :
    collectReplacements originalLines path mode (chunk :: chunks) lineIndex =
      (place originalLines mode chunk reached).elim
        (.error (.computeReplacements (missingLines chunk.oldLines path)))
        fun placement =>
          pieces mode chunk placement >>= fun here =>
            (collectReplacements originalLines path mode chunks
              (indexBehind chunk reached placement)).map (here ++ ·) := by
  have reading : collectReplacements originalLines path mode (chunk :: chunks) lineIndex =
      collectReplacements originalLines path mode
        ({ chunk with changeContext := none } :: chunks) reached := by
    unfold contextIndex at moved
    rw [collectReplacements]
    cases context : chunk.changeContext with
    | none =>
      rw [context] at moved
      cases moved
      rfl
    | some line =>
      rw [context] at moved
      obtain ⟨found, search, rfl⟩ := map_eq_some_iff.mp moved
      simp only [search]
      rfl
  rw [reading, collectReplacements]
  by_cases blank : chunk.oldLines = []
  · simp only [place, pieces, indexBehind, if_pos blank, bind, Except.bind]
    cases collectReplacements originalLines path mode chunks reached <;> rfl
  · simp only [place, pieces, indexBehind, if_neg blank, bind, Except.bind]
    have same : locateChunk originalLines mode { chunk with changeContext := none } reached =
        locateChunk originalLines mode chunk reached := rfl
    rw [same]
    cases locateChunk originalLines mode chunk reached with
    | none => rfl
    | some found =>
      have here : chunkReplacements mode { chunk with changeContext := none } found.1 found.2.1
          found.2.2 = chunkReplacements mode chunk found.1 found.2.1 found.2.2 := rfl
      cases chunkReplacements mode chunk found.1 found.2.1 found.2.2 with
      | error failure => rfl
      | ok pieces =>
        cases collectReplacements originalLines path mode chunks (found.1 + found.2.1.length) <;>
          rfl

/-- Collecting fails with a message where a chunk has no place, and else gives the pieces of the
placed chunks, where none of these fails. -/
theorem collect_cases {piece : UpdateFileChunk → Placement → List Replacement}
    (sound : ∀ chunk ∈ chunks, ∀ index placement,
      place originalLines mode chunk index = some placement →
        pieces mode chunk placement = .ok (piece chunk placement)) (lineIndex : Nat) :
    (placements originalLines mode chunks lineIndex = none ∧ ∃ message,
        collectReplacements originalLines path mode chunks lineIndex =
          .error (.computeReplacements message)) ∨
      ∃ places, placements originalLines mode chunks lineIndex = some places ∧
        collectReplacements originalLines path mode chunks lineIndex =
          .ok (zipWith piece chunks places).flatten := by
  induction chunks generalizing lineIndex with
  | nil => exact Or.inr ⟨[], rfl, rfl⟩
  | cons chunk chunks ih =>
    have others : ∀ next ∈ chunks, ∀ index placement,
        place originalLines mode next index = some placement →
          pieces mode next placement = .ok (piece next placement) :=
      fun next member => sound next (mem_cons_of_mem _ member)
    cases moved : contextIndex originalLines mode chunk lineIndex with
    | none =>
      refine Or.inl ⟨by rw [placements, moved]; rfl, ?_⟩
      exact collect_lost path chunks moved
    | some reached =>
      rw [collect_reached path chunks moved, placements, moved, bind_some]
      cases here : place originalLines mode chunk reached with
      | none =>
        refine Or.inl ⟨rfl, missingLines chunk.oldLines path, ?_⟩
        rfl
      | some placement =>
        have given := sound chunk mem_cons_self reached placement here
        rw [bind_some]
        rcases ih others (indexBehind chunk reached placement) with
          ⟨none, message, failed⟩ | ⟨places, placed, collected⟩
        · refine Or.inl ⟨by rw [none]; rfl, message, ?_⟩
          simp only [elim_some, given, failed]
          rfl
        · refine Or.inr ⟨placement :: places, by rw [placed]; rfl, ?_⟩
          simp only [elim_some, given, collected]
          rfl

end OpenInterpreter.ChunkPlacement
