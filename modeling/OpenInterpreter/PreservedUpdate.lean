import OpenInterpreter.ParsedChunks
import OpenInterpreter.SeekSequence

/-! Updates in the mode `PreserveLineEndings`: the replacements around the context lines of the
chunks, and the lines that come out with their own text and ending. -/

namespace OpenInterpreter.PreservedUpdate

open Text PatchParser FileUpdate ListRegions ChunkPlacement ParsedChunks SeekSequence List

def regionOf (replacement : Replacement) : Region (List Char) :=
  ⟨replacement.start, replacement.oldLen, replacement.newLines⟩

def Covered (replacements : List Replacement) (index : Nat) : Prop :=
  ∃ replacement ∈ replacements, (regionOf replacement).covers index

variable {index : Nat}

theorem covered_append {left right : List Replacement} :
    Covered (left ++ right) index ↔ Covered left index ∨ Covered right index := by
  simp [Covered, or_and_right, exists_or]

def gap (startIdx : Nat) (newSlice : List (List Char)) (oldStart newStart oldEnd newEnd : Nat) :
    List Replacement :=
  if oldStart ≠ oldEnd ∨ newStart ≠ newEnd then
    [⟨startIdx + oldStart, oldEnd - oldStart, (newSlice.take newEnd).drop newStart⟩]
  else []

def gaps (startIdx : Nat) (pattern newSlice : List (List Char)) :
    List (Nat × Nat) → Nat → Nat → List Replacement
  | [], oldStart, newStart =>
    gap startIdx newSlice oldStart newStart pattern.length newSlice.length
  | (oldContext, newContext) :: rest, oldStart, newStart =>
    if pattern.length ≤ oldContext ∨ newSlice.length ≤ newContext then
      gap startIdx newSlice oldStart newStart pattern.length newSlice.length
    else
      gap startIdx newSlice oldStart newStart oldContext newContext ++
        gaps startIdx pattern newSlice rest (oldContext + 1) (newContext + 1)

variable {text : List Char}

section

variable {startIdx : Nat} {pattern newSlice : List (List Char)} {indices : List (Nat × Nat)}
  {oldStart newStart oldEnd newEnd : Nat}

theorem contextReplacements_eq (climbing : Climbing oldStart newStart indices) :
    contextReplacements startIdx pattern newSlice indices oldStart newStart =
      .ok (gaps startIdx pattern newSlice indices oldStart newStart) := by
  have ending (oldStart newStart : Nat) :
      contextReplacements startIdx pattern newSlice [] oldStart newStart =
        .ok (gap startIdx newSlice oldStart newStart pattern.length newSlice.length) := by
    rw [contextReplacements, gap, take_length]
  induction indices generalizing oldStart newStart with
  | nil => exact ending oldStart newStart
  | cons pair indices ih =>
    obtain ⟨old, new, rest⟩ := climbing
    rw [contextReplacements, gaps]
    split
    · exact ending oldStart newStart
    · rw [if_neg (by omega), ih rest]
      rfl

theorem gap_inOrder (forward : oldStart ≤ oldEnd) :
    InOrder (startIdx + oldEnd) (startIdx + oldStart)
      ((gap startIdx newSlice oldStart newStart oldEnd newEnd).map regionOf) := by
  rw [gap]
  split
  · refine ⟨Nat.le_refl _, ?_⟩
    change startIdx + oldStart + (oldEnd - oldStart) ≤ startIdx + oldEnd
    omega
  · exact Nat.add_le_add_left forward _

theorem gap_covered :
    Covered (gap startIdx newSlice oldStart newStart oldEnd newEnd) (startIdx + index) ↔
      oldStart ≤ index ∧ index < oldEnd := by
  rw [gap]
  split
  · constructor
    · rintro ⟨piece, member, front, back⟩
      cases mem_singleton.mp member
      simp only [regionOf, Region.stop] at front back
      omega
    · intro inside
      refine ⟨_, mem_singleton_self _, ?_⟩
      simp only [Region.covers, regionOf, Region.stop]
      omega
  · constructor
    · rintro ⟨piece, member, -⟩
      cases member
    · omega

theorem gap_added (front : newStart ≤ index) (back : index < newEnd)
    (found : newSlice[index]? = some text) :
    ∃ piece ∈ gap startIdx newSlice oldStart newStart oldEnd newEnd, text ∈ piece.newLines := by
  have changed : oldStart ≠ oldEnd ∨ newStart ≠ newEnd := by omega
  have shown : ((newSlice.take newEnd).drop newStart)[index - newStart]? = some text := by
    rw [getElem?_drop, Nat.add_sub_cancel' front, getElem?_take_of_lt back, found]
  rw [gap, if_pos changed]
  exact ⟨_, mem_singleton_self _, mem_of_getElem? shown⟩

section

variable (climbing : Climbing oldStart newStart indices)
include climbing

theorem gaps_inOrder (forward : oldStart ≤ pattern.length) :
    InOrder (startIdx + pattern.length) (startIdx + oldStart)
      ((gaps startIdx pattern newSlice indices oldStart newStart).map regionOf) := by
  induction indices generalizing oldStart newStart with
  | nil => exact gap_inOrder forward
  | cons pair indices ih =>
    obtain ⟨old, new, rest⟩ := climbing
    rw [gaps]
    split
    · exact gap_inOrder forward
    · rw [map_append]
      have later := ih rest (by omega)
      exact (gap_inOrder old).append (later.mono (by omega))

theorem gaps_not_covered (forward : oldStart ≤ pattern.length) (before : index < oldStart) :
    ¬ Covered (gaps startIdx pattern newSlice indices oldStart newStart) (startIdx + index) := by
  rintro ⟨piece, member, front, -⟩
  have inside := (gaps_inOrder climbing forward).mem (mem_map_of_mem member)
  omega

theorem gaps_covered {pair : Nat × Nat}
    (member : pair ∈ indices) (inside : pair.1 < pattern.length) :
    Covered (gaps startIdx pattern newSlice indices oldStart newStart) (startIdx + pair.1) ↔
      newSlice.length ≤ pair.2 := by
  induction indices generalizing oldStart newStart with
  | nil => cases member
  | cons first indices ih =>
    obtain ⟨old, new, rest⟩ := climbing
    have later : pair = first ∨ (first.1 < pair.1 ∧ first.2 < pair.2) := by
      rcases mem_cons.mp member with same | further
      · exact Or.inl same
      · exact Or.inr (climbing_below rest further)
    rw [gaps]
    split
    · rw [gap_covered]
      rcases later with rfl | further
      · omega
      · omega
    · rw [covered_append, gap_covered]
      rcases mem_cons.mp member with rfl | further
      · have free : ¬ Covered
            (gaps startIdx pattern newSlice indices (pair.1 + 1) (pair.2 + 1))
            (startIdx + pair.1) := gaps_not_covered rest (by omega) (Nat.lt_succ_self _)
        constructor
        · rintro (here | there)
          · omega
          · exact absurd there free
        · omega
      · rw [ih rest further]
        have above := climbing_below rest further
        omega

theorem gaps_added (front : newStart ≤ index) (found : newSlice[index]? = some text)
    (free : ∀ pair ∈ indices, pair.2 = index → pattern.length ≤ pair.1) :
    ∃ piece ∈ gaps startIdx pattern newSlice indices oldStart newStart, text ∈ piece.newLines := by
  have back : index < newSlice.length := (List.getElem?_eq_some_iff.mp found).1
  induction indices generalizing oldStart newStart with
  | nil => exact gap_added front back found
  | cons pair indices ih =>
    obtain ⟨old, new, rest⟩ := climbing
    obtain ⟨here, later⟩ := forall_mem_cons.mp free
    rw [gaps]
    split
    · exact gap_added front back found
    · by_cases before : index < pair.2
      · obtain ⟨piece, member, new⟩ := gap_added front before found
        exact ⟨piece, mem_append_left _ member, new⟩
      · -- the context line itself is kept, so the line comes behind it
        have behind : pair.2 + 1 ≤ index := by omega
        obtain ⟨piece, member, new⟩ := ih rest behind later
        exact ⟨piece, mem_append_right _ member, new⟩

end

end

def piece (chunk : UpdateFileChunk) (placement : Placement) : List Replacement :=
  if chunk.oldLines = [] then [⟨placement.start, 0, placement.new⟩]
  else gaps placement.start placement.old placement.new chunk.contextLineIndices 0 0

def collected (chunks : List UpdateFileChunk) (places : List Placement) : List Replacement :=
  (zipWith piece chunks places).flatten

@[simp]
theorem collected_cons (chunk : UpdateFileChunk) (chunks : List UpdateFileChunk)
    (placement : Placement) (places : List Placement) :
    collected (chunk :: chunks) (placement :: places) =
      piece chunk placement ++ collected chunks places :=
  rfl

variable {chunk : UpdateFileChunk}

theorem pieces_preserved (indexed : Indexed chunk) (placement : Placement) :
    pieces .preserveLineEndings chunk placement = .ok (piece chunk placement) := by
  rw [pieces, piece]
  split
  · rfl
  · exact contextReplacements_eq indexed.climbing

theorem piece_inOrder (indexed : Indexed chunk) (placement : Placement) :
    InOrder placement.stop placement.start ((piece chunk placement).map regionOf) := by
  rw [piece]
  split
  · exact ⟨Nat.le_refl _, Nat.le_add_right _ _⟩
  · exact gaps_inOrder indexed.climbing (Nat.zero_le _)

variable {placement : Placement} {replacement : Replacement}

theorem piece_mem (indexed : Indexed chunk) (member : replacement ∈ piece chunk placement) :
    placement.start ≤ replacement.start ∧ (regionOf replacement).stop ≤ placement.stop :=
  (piece_inOrder indexed placement).mem (mem_map_of_mem member)

variable {chunks : List UpdateFileChunk} {places : List Placement}

section

variable {originalLines : List (List Char)} {lineIndex : Nat}

theorem place_behind {reached : Nat} (inside : reached ≤ originalLines.length)
    (placed : place originalLines .preserveLineEndings chunk reached = some placement) :
    reached ≤ placement.start ∧ placement.stop ≤ originalLines.length ∧
      (chunk.oldLines = [] → placement.start = originalLines.length) := by
  obtain ⟨-, within, behind⟩ := place_spec inside placed
  by_cases blank : chunk.oldLines = []
  · rw [place, if_pos blank] at placed
    cases placed
    exact ⟨inside, within, fun _ => rfl⟩
  · exact ⟨behind blank (Or.inr rfl), within, fun appended => absurd appended blank⟩

theorem le_indexBehind (chunk : UpdateFileChunk) {reached : Nat}
    (start : reached ≤ placement.start) : reached ≤ indexBehind chunk reached placement := by
  unfold indexBehind
  split
  · exact Nat.le_refl _
  · exact start.trans (Nat.le_add_right _ _)

section

variable (inside : lineIndex ≤ originalLines.length)
include inside

theorem placements_behind
    (placed : placements originalLines .preserveLineEndings chunks lineIndex = some places) :
    ∀ placement ∈ places, lineIndex ≤ placement.start := by
  induction chunks generalizing lineIndex places with
  | nil =>
    cases placed
    exact forall_mem_nil _
  | cons chunk chunks ih =>
    obtain ⟨reached, placement, later, moved, here, rest, rfl⟩ := placements_cons placed
    have bounds := contextIndex_spec inside moved
    obtain ⟨start, within, -⟩ := place_behind bounds.2 here
    have others := ih (indexBehind_le bounds.2 within) rest
    refine forall_mem_cons.mpr ⟨bounds.1.trans start, fun next member => ?_⟩
    have behind := others next member
    have forward := le_indexBehind chunk start
    omega

theorem collected_apart (all : AllIndexed chunks)
    (placed : placements originalLines .preserveLineEndings chunks lineIndex = some places) :
    (∀ replacement ∈ collected chunks places,
        lineIndex ≤ replacement.start ∧ (regionOf replacement).stop ≤ originalLines.length) ∧
      (collected chunks places).Pairwise (fun left right =>
        (regionOf left).stop ≤ right.start ∨
          ((regionOf right).stop ≤ left.start ∧ right.start < left.start)) := by
  induction chunks generalizing lineIndex places with
  | nil =>
    exact ⟨forall_mem_nil _, List.Pairwise.nil⟩
  | cons chunk chunks ih =>
    obtain ⟨indexed, others⟩ := forall_mem_cons.mp all
    obtain ⟨reached, placement, later, moved, here, rest, rfl⟩ := placements_cons placed
    have bounds := contextIndex_spec inside moved
    obtain ⟨start, within, appended⟩ := place_behind bounds.2 here
    obtain ⟨bounded, apart⟩ := ih (indexBehind_le bounds.2 within) others rest
    have forward := le_indexBehind chunk start
    constructor
    · refine forall_mem_append.mpr ⟨fun replacement member => ?_, fun replacement member => ?_⟩
      · have own := piece_mem indexed member
        omega
      · have other := bounded replacement member
        omega
    · refine pairwise_append.mpr ⟨?_, apart, ?_⟩
      · have ordered := piece_inOrder indexed placement
        rw [inOrder_iff_pairwise] at ordered
        exact (pairwise_map.mp ordered.2.2).imp Or.inl
      · intro left own right other
        have first := piece_mem indexed own
        have second := bounded right other
        have span := (regionOf right).start_le_stop
        by_cases blank : chunk.oldLines = []
        · -- an appended chunk stands behind all lines
          have last := appended blank
          omega
        · have index : indexBehind chunk reached placement = placement.stop := if_neg blank
          omega

theorem covered_own (all : AllIndexed chunks)
    (placed : placements originalLines .preserveLineEndings chunks lineIndex = some places)
    (member : (chunk, placement) ∈ chunks.zip places)
    (front : placement.start ≤ index) (back : index < placement.stop) :
    Covered (collected chunks places) index ↔ Covered (piece chunk placement) index := by
  induction chunks generalizing lineIndex places with
  | nil => cases member
  | cons first chunks ih =>
    obtain ⟨indexed, others⟩ := forall_mem_cons.mp all
    obtain ⟨reached, head, later, moved, here, rest, rfl⟩ := placements_cons placed
    have bounds := contextIndex_spec inside moved
    obtain ⟨start, within, appended⟩ := place_behind bounds.2 here
    have stays : indexBehind first reached head ≤ originalLines.length :=
      indexBehind_le bounds.2 within
    obtain ⟨bounded, -⟩ := collected_apart stays others rest
    rw [collected_cons, covered_append]
    rw [zip_cons_cons, mem_cons] at member
    rcases member with same | further
    · cases same
      refine or_iff_left ?_
      rintro ⟨replacement, inside, start, -⟩
      have behind := (bounded replacement inside).1
      change replacement.start ≤ index at start
      by_cases blank : chunk.oldLines = []
      · have last := appended blank
        omega
      · have reach : indexBehind chunk reached placement = placement.stop := if_neg blank
        omega
    · rw [ih stays others rest further]
      refine or_iff_right ?_
      rintro ⟨replacement, own, start, stop⟩
      have behind := placements_behind stays rest placement (of_mem_zip further).2
      have limit := piece_mem indexed own
      by_cases blank : first.oldLines = []
      · rw [piece, if_pos blank] at own
        cases mem_singleton.mp own
        simp only [regionOf, Region.stop] at start stop
        omega
      · have reach : indexBehind first reached head = head.stop := if_neg blank
        omega

end

theorem covered_outside (all : AllIndexed chunks)
    (covered : Covered (collected chunks places) index) :
    ∃ placement ∈ places, placement.start ≤ index ∧ index < placement.stop := by
  induction chunks generalizing places with
  | nil =>
    obtain ⟨replacement, member, -⟩ := covered
    cases member
  | cons chunk chunks ih =>
    obtain ⟨indexed, others⟩ := forall_mem_cons.mp all
    cases places with
    | nil =>
      obtain ⟨replacement, member, -⟩ := covered
      cases member
    | cons placement places =>
      rw [collected_cons, covered_append] at covered
      rcases covered with ⟨replacement, own, start, stop⟩ | later
      · have limit := piece_mem indexed own
        exact ⟨placement, mem_cons_self, limit.1.trans start, by omega⟩
      · obtain ⟨next, member, inside⟩ := ih others later
        exact ⟨next, mem_cons_of_mem _ member, inside⟩

theorem collected_of_piece (member : (chunk, placement) ∈ chunks.zip places)
    (own : replacement ∈ piece chunk placement) : replacement ∈ collected chunks places := by
  induction chunks generalizing places with
  | nil => cases member
  | cons first chunks ih =>
    cases places with
    | nil => cases member
    | cons head places =>
      rw [collected_cons, mem_append]
      rw [zip_cons_cons, mem_cons] at member
      rcases member with same | later
      · cases same
        exact Or.inl own
      · exact Or.inr (ih later)

end

def addedLine (preferred : LineEnding) (text : List Char) : SourceLine := ⟨text, some preferred⟩

def terminated (preferred : LineEnding) (line : SourceLine) : SourceLine :=
  { line with ending := some (line.ending.getD preferred) }

theorem spliceLines_inOrder (preferred : LineEnding) {source : List SourceLine}
    {replacements : List Replacement}
    (ordered : InOrder source.length index (replacements.map regionOf)) :
    spliceLines preferred (source.drop index) index replacements = .ok (replaced source index
        (replacements.map fun replacement => (regionOf replacement).map (addedLine preferred))) := by
  induction replacements generalizing index with
  | nil =>
    rfl
  | cons replacement replacements ih =>
    obtain ⟨front, rest⟩ := ordered
    change index ≤ replacement.start at front
    have kept : (source.drop index).take (replacement.start - index) =
        (source.take replacement.start).drop index := by
      rw [drop_take]
    have behind : ((source.drop index).drop (replacement.start - index)).drop replacement.oldLen =
        source.drop (replacement.start + replacement.oldLen) := by
      rw [drop_drop, drop_drop]
      congr 1
      omega
    have later : spliceLines preferred (source.drop (replacement.start + replacement.oldLen))
        (replacement.start + replacement.oldLen) replacements = .ok _ := ih rest
    rw [spliceLines, if_neg (by omega)]
    dsimp only
    rw [behind, later, kept]
    simp only [append_assoc]
    rfl

def rebuiltLines (file : SourceFile) (replacements : List Replacement) : List SourceLine :=
  (replaced file.lines 0 (replacements.map fun replacement =>
    (regionOf replacement).map (addedLine file.preferredEnding))).map
      (terminated file.preferredEnding)

/-- The lines of the file come out with their own text and ending, except for the old lines that
are replaced, and added lines have the preferred ending. -/
structure Preserves (file : SourceFile) (chunks : List UpdateFileChunk) (places : List Placement)
    (replacements : List Replacement) (lines : List SourceLine) : Prop where
  sorted : replacements.Pairwise (fun left right => left.start + left.oldLen ≤ right.start)
  within : ∀ replacement ∈ replacements, replacement.start + replacement.oldLen ≤ file.lines.length
  rebuilt : lines = rebuiltLines file replacements
  outside : ∀ index, Covered replacements index →
    ∃ placement ∈ places, placement.start ≤ index ∧ index < placement.stop
  contexts : ∀ chunk placement, (chunk, placement) ∈ chunks.zip places →
    ∀ pair ∈ chunk.contextLineIndices, pair.1 < placement.old.length →
      ¬ Covered replacements (placement.start + pair.1)
  added : ∀ chunk placement, (chunk, placement) ∈ chunks.zip places →
    ∀ index text, placement.new[index]? = some text →
      (∀ pair ∈ chunk.contextLineIndices, pair.2 = index → placement.old.length ≤ pair.1) →
        addedLine file.preferredEnding text ∈ lines

/-- The last new line of the chunk is an empty context line, behind which only lines are removed,
the last of them empty. -/
structure EndsInBlankContext (chunk : UpdateFileChunk) : Prop where
  old : chunk.oldLines.getLast? = some []
  new : chunk.newLines.getLast? = some []
  context : ∃ pair ∈ chunk.contextLineIndices,
    pair.1 + 1 < chunk.oldLines.length ∧ pair.2 + 1 = chunk.newLines.length

/-- A chunk that ends in an empty context line stands in the file with all its old lines. -/
def WholeIfBlank (lines : List (List Char)) (chunk : UpdateFileChunk) (reached _taken : Nat) :
    Prop :=
  EndsInBlankContext chunk → Stands lines .preserveLineEndings chunk reached

def KeepsContext (chunk : UpdateFileChunk) (placement : Placement) : Prop :=
  ∀ pair ∈ chunk.contextLineIndices, pair.1 < placement.old.length → pair.2 < placement.new.length

section

variable {originalLines : List (List Char)}

theorem keepsContext_iff (indexed : Indexed chunk) {reached : Nat}
    (placed : place originalLines .preserveLineEndings chunk reached = some placement)
    (taken : Nat) :
    KeepsContext chunk placement ↔ WholeIfBlank originalLines chunk reached taken := by
  by_cases nonempty : chunk.oldLines = []
  · constructor
    · intro _ blank
      have none := blank.old
      rw [nonempty] at none
      cases none
    · intro _ pair context _
      have below := (indexed.inside pair context).1
      rw [nonempty] at below
      cases below
  rcases place_cases nonempty placed with ⟨stands, same, -⟩ | ⟨absent, old, same, -⟩
  · rw [same]
    exact ⟨fun _ _ => stands, fun _ pair context _ => (indexed.inside pair context).2⟩
  rw [same, KeepsContext, WholeIfBlank, length_dropLast]
  constructor
  · -- the retry cuts the new line of the empty context line
    rintro keeps ⟨-, new, pair, context, inside, last⟩
    have kept := keeps pair context (by omega)
    rw [withoutTrailing, if_pos new, length_dropLast] at kept
    omega
  · intro whole pair context inside
    have below := (indexed.inside pair context).2
    rw [withoutTrailing]
    split
    · rename_i new
      rw [length_dropLast]
      by_contra cut
      exact absent (whole ⟨old, new, pair, context, by omega, by omega⟩)
    · exact below

theorem keeps_iff {lineIndex : Nat} (all : AllIndexed chunks)
    (placed : placements originalLines .preserveLineEndings chunks lineIndex = some places)
    (taken : Nat) :
    (∀ chunk placement, (chunk, placement) ∈ chunks.zip places → KeepsContext chunk placement) ↔
      EachChunk (WholeIfBlank originalLines) originalLines .preserveLineEndings chunks lineIndex
        taken := by
  induction chunks generalizing lineIndex places taken with
  | nil => exact ⟨fun _ => trivial, fun _ chunk placement member => nomatch member⟩
  | cons chunk chunks ih =>
    obtain ⟨indexed, others⟩ := forall_mem_cons.mp all
    obtain ⟨reached, placement, later, moved, here, rest, rfl⟩ := placements_cons placed
    rw [eachChunk_cons moved here, ← keepsContext_iff indexed here, ← ih others rest]
    simp only [zip_cons_cons, mem_cons, Prod.mk.injEq, or_imp, forall_and, and_imp,
      forall_eq_apply_imp_iff, forall_eq]

end

section

variable {file : SourceFile}

def sortedReplacements (chunks : List UpdateFileChunk) (places : List Placement) :
    List Replacement :=
  (collected chunks places).insertionSort (fun left right => left.start ≤ right.start)

theorem covered_sorted (places : List Placement) (index : Nat) :
    Covered (sortedReplacements chunks places) index ↔ Covered (collected chunks places) index := by
  simp [Covered, sortedReplacements]

theorem computeReplacements_cases (file : SourceFile) (path : List Char) (all : AllIndexed chunks) :
    (placements file.lineTexts .preserveLineEndings chunks 0 = none ∧ ∃ message,
        computeReplacements file.lineTexts path chunks .preserveLineEndings =
          .error (.computeReplacements message)) ∨
      ∃ places, placements file.lineTexts .preserveLineEndings chunks 0 = some places ∧
        computeReplacements file.lineTexts path chunks .preserveLineEndings =
          .ok (sortedReplacements chunks places) := by
  have sound : ∀ chunk ∈ chunks, ∀ index placement,
      place file.lineTexts .preserveLineEndings chunk index = some placement →
        pieces .preserveLineEndings chunk placement = .ok (piece chunk placement) :=
    fun chunk member _ placement _ => pieces_preserved (all chunk member) placement
  rw [computeReplacements]
  rcases collect_cases path chunks sound 0 with ⟨none, message, failed⟩ | ⟨places, placed, done⟩
  · exact Or.inl ⟨none, message, by rw [failed]; rfl⟩
  · exact Or.inr ⟨places, placed, by rw [done]; rfl⟩

theorem computeReplacements_placed (path : List Char) (all : AllIndexed chunks)
    (placed : placements file.lineTexts .preserveLineEndings chunks 0 = some places) :
    computeReplacements file.lineTexts path chunks .preserveLineEndings =
      .ok (sortedReplacements chunks places) := by
  rcases computeReplacements_cases file path all with ⟨none, -⟩ | ⟨others, found, computed⟩
  · cases none.symm.trans placed
  · cases found.symm.trans placed
    exact computed

theorem length_lineTexts (file : SourceFile) : file.lineTexts.length = file.lines.length :=
  length_map _

section

variable (all : AllIndexed chunks)
include all

section

variable (placed : placements file.lineTexts .preserveLineEndings chunks 0 = some places)
include placed

theorem sorted_inOrder :
    InOrder file.lines.length 0 ((sortedReplacements chunks places).map regionOf) := by
  obtain ⟨bounded, apart⟩ := collected_apart (Nat.zero_le _) all placed
  rw [length_lineTexts] at bounded
  have forwards (replacement : Replacement) : replacement.start ≤ (regionOf replacement).stop :=
    Nat.le_add_right _ _
  have sorted := insertionSort_apart forwards apart
  rw [inOrder_iff_pairwise]
  refine ⟨Nat.zero_le _, fun region member => ?_, pairwise_map.mpr sorted⟩
  obtain ⟨replacement, source, rfl⟩ := mem_map.mp member
  exact ⟨Nat.zero_le _, (bounded replacement ((mem_insertionSort _).mp source)).2⟩

theorem applyReplacements_sorted :
    file.applyReplacements (sortedReplacements chunks places) =
      .ok { file with lines := rebuiltLines file (sortedReplacements chunks places) } := by
  have spliced := spliceLines_inOrder file.preferredEnding (sorted_inOrder all placed)
  rw [drop_zero] at spliced
  rw [SourceFile.applyReplacements, spliced]
  rfl

end

theorem deriveNewContents_placed {contents : List Char} (path : List Char)
    (placed : placements (SourceFile.parse contents).lineTexts .preserveLineEndings chunks 0 =
      some places) :
    deriveNewContents path chunks .preserveLineEndings contents =
      .ok (SourceFile.intoContents { SourceFile.parse contents with
        lines := rebuiltLines (SourceFile.parse contents) (sortedReplacements chunks places) }) := by
  rw [deriveNewContents, computeReplacements_placed path all placed]
  change ((SourceFile.parse contents).applyReplacements _ >>= _) = _
  rw [applyReplacements_sorted all placed]
  rfl

theorem context_covered_iff
    (placed : placements file.lineTexts .preserveLineEndings chunks 0 = some places)
    {chunk : UpdateFileChunk} (member : (chunk, placement) ∈ chunks.zip places) {pair : Nat × Nat}
    (context : pair ∈ chunk.contextLineIndices) (inside : pair.1 < placement.old.length) :
    Covered (sortedReplacements chunks places) (placement.start + pair.1) ↔
      placement.new.length ≤ pair.2 := by
  have indexed := all chunk (of_mem_zip member).1
  have lines : chunk.oldLines ≠ [] := by
    intro blank
    have below := (indexed.inside pair context).1
    rw [blank] at below
    cases below
  have back : placement.start + pair.1 < placement.stop := Nat.add_lt_add_left inside _
  rw [covered_sorted,
    covered_own (Nat.zero_le _) all placed member (Nat.le_add_right _ _) back, piece, if_neg lines]
  exact gaps_covered indexed.climbing context inside

end

theorem piece_added {chunk : UpdateFileChunk} (indexed : Indexed chunk)
    (found : placement.new[index]? = some text)
    (free : ∀ pair ∈ chunk.contextLineIndices, pair.2 = index → placement.old.length ≤ pair.1) :
    ∃ replacement ∈ piece chunk placement, text ∈ replacement.newLines := by
  rw [piece]
  split
  · exact ⟨_, mem_singleton_self _, mem_of_getElem? found⟩
  · exact gaps_added indexed.climbing (Nat.zero_le _) found free

theorem preserves_iff (all : AllIndexed chunks)
    (placed : placements file.lineTexts .preserveLineEndings chunks 0 = some places) :
    Preserves file chunks places (sortedReplacements chunks places)
        (rebuiltLines file (sortedReplacements chunks places)) ↔
      EachChunk (WholeIfBlank file.lineTexts) file.lineTexts .preserveLineEndings chunks 0 0 := by
  rw [← keeps_iff all placed]
  constructor
  · intro preserves chunk placement member pair context inside
    have free := preserves.contexts chunk placement member pair context inside
    rw [context_covered_iff all placed member context inside] at free
    exact Nat.lt_of_not_le free
  · intro keeps
    have ordered := sorted_inOrder all placed
    rw [inOrder_iff_pairwise] at ordered
    refine ⟨pairwise_map.mp ordered.2.2, ?_, rfl, ?_, ?_, ?_⟩
    · intro replacement member
      exact (ordered.2.1 _ (mem_map_of_mem member)).2
    · intro index covered
      exact covered_outside all ((covered_sorted places index).mp covered)
    · intro chunk placement member pair context inside
      rw [context_covered_iff all placed member context inside]
      exact Nat.not_le.mpr (keeps chunk placement member pair context inside)
    · intro chunk placement member index text found free
      obtain ⟨replacement, own, new⟩ := piece_added (all chunk (of_mem_zip member).1) found free
      have listed : replacement ∈ sortedReplacements chunks places :=
        (mem_insertionSort _).mpr (collected_of_piece member own)
      have shown : addedLine file.preferredEnding text ∈ replaced file.lines 0
          ((sortedReplacements chunks places).map fun replacement =>
            (regionOf replacement).map (addedLine file.preferredEnding)) :=
        mem_replaced_of_content (mem_map_of_mem listed) (mem_map_of_mem new)
      exact mem_map_of_mem shown

/-- An update of chunks that the parser produced never panics, and it keeps every line outside the
replaced old lines and every context line exactly if each chunk that ends in an empty context line
stands with all its old lines in the file, from where it is looked for. -/
theorem preserved_update_iff (path contents : List Char) (chunks : List UpdateFileChunk)
    (parsed : Parsed chunks)
    (accepted : ∀ message, deriveNewContents path chunks .preserveLineEndings contents ≠
      .error (.computeReplacements message)) :
    ∃ places replacements lines,
      placements (SourceFile.parse contents).lineTexts .preserveLineEndings chunks 0 = some places ∧
      computeReplacements (SourceFile.parse contents).lineTexts path chunks .preserveLineEndings =
        .ok replacements ∧
      deriveNewContents path chunks .preserveLineEndings contents =
        .ok (SourceFile.intoContents { SourceFile.parse contents with lines := lines }) ∧
      (Preserves (SourceFile.parse contents) chunks places replacements lines ↔
        EachChunk (WholeIfBlank (SourceFile.parse contents).lineTexts)
          (SourceFile.parse contents).lineTexts .preserveLineEndings chunks 0 0) := by
  have all := parsed_indexed parsed
  rcases computeReplacements_cases (SourceFile.parse contents) path all with
    ⟨-, message, failed⟩ | ⟨places, placed, computed⟩
  · refine absurd ?_ (accepted message)
    rw [deriveNewContents, failed]
    rfl
  · exact ⟨places, sortedReplacements chunks places, _, placed, computed,
      deriveNewContents_placed all path placed, preserves_iff all placed⟩

end

def mixedPatch : List Char :=
  "*** Begin Patch\n*** Update File: f\n@@\n-a\n+x\n \n-\n*** End Patch".toList

def mixedChunk : UpdateFileChunk :=
  ⟨none, ["a".toList, [], []], ["x".toList, []], [(1, 1)], false⟩

theorem mixedChunk_parsed : Parsed [mixedChunk] :=
  ⟨mixedPatch, ⟨[.updateFile "f".toList none [mixedChunk]], mixedPatch, none⟩, "f".toList, none,
    by decide +kernel, mem_singleton_self _⟩

theorem mixed_endings_kept :
    deriveNewContents "f".toList [mixedChunk] .preserveLineEndings "a\r\n\n\r\nb".toList =
        .ok "x\r\n\nb\r\n".toList ∧
      EndsInBlankContext mixedChunk ∧
      ∃ places replacements lines, Preserves (SourceFile.parse "a\r\n\n\r\nb".toList) [mixedChunk]
        places replacements lines := by
  have found : placements (SourceFile.parse "a\r\n\n\r\nb".toList).lineTexts
      .preserveLineEndings [mixedChunk] 0 = some [⟨0, mixedChunk.oldLines, mixedChunk.newLines⟩] := by
    decide +kernel
  have derived : deriveNewContents "f".toList [mixedChunk] .preserveLineEndings
      "a\r\n\n\r\nb".toList = .ok "x\r\n\nb\r\n".toList := by
    rw [deriveNewContents_placed (parsed_indexed mixedChunk_parsed) "f".toList found]
    decide +kernel
  obtain ⟨places, replacements, lines, placed, -, -, iff⟩ := preserved_update_iff "f".toList
    "a\r\n\n\r\nb".toList [mixedChunk] mixedChunk_parsed (by rw [derived]; nofun)
  cases placed.symm.trans found
  refine ⟨derived, ⟨rfl, rfl, (1, 1), mem_singleton_self _, by decide⟩, _, replacements, lines,
    iff.mpr ?_⟩
  obtain ⟨reached, placement, -, moved, here, -⟩ := placements_cons placed
  cases moved
  exact (eachChunk_cons rfl here).mpr ⟨fun _ => ⟨0, Nat.le_refl 0, by decide +kernel⟩, trivial⟩

def blankPatch : List Char :=
  "*** Begin Patch\n*** Update File: f\n@@\n \n-\n*** End Patch".toList

def blankChunk : UpdateFileChunk := ⟨none, [[], []], [[]], [(0, 0)], false⟩

theorem blankChunk_parsed : Parsed [blankChunk] :=
  ⟨blankPatch, ⟨[.updateFile "f".toList none [blankChunk]], blankPatch, none⟩, "f".toList, none,
    by decide +kernel, mem_singleton_self _⟩

/-- The empty context line of the chunk is found and removed, for the retry takes its new line for
that of the removed line. -/
theorem blank_context_removed :
    Parsed [blankChunk] ∧
      placements (SourceFile.parse "a\n\nb\n".toList).lineTexts .preserveLineEndings [blankChunk] 0 =
        some [⟨1, [[]], []⟩] ∧
      computeReplacements (SourceFile.parse "a\n\nb\n".toList).lineTexts "f".toList [blankChunk]
        .preserveLineEndings = .ok [⟨1, 1, []⟩] ∧
      deriveNewContents "f".toList [blankChunk] .preserveLineEndings "a\n\nb\n".toList =
        .ok "a\nb\n".toList := by
  have found : placements (SourceFile.parse "a\n\nb\n".toList).lineTexts .preserveLineEndings
      [blankChunk] 0 = some [⟨1, [[]], []⟩] := by decide +kernel
  have indexed := parsed_indexed blankChunk_parsed
  refine ⟨blankChunk_parsed, found, ?_, ?_⟩
  · rw [computeReplacements_placed "f".toList indexed found]
    decide +kernel
  · rw [deriveNewContents_placed indexed "f".toList found]
    decide +kernel

end OpenInterpreter.PreservedUpdate
